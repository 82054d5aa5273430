import CallByNeed.Proofs.Loading

/-!
# What an entry does to a session

An entry that is typed into the shell is an import, a binding or an expression.  Loading
leaves the session as it was but for what was read and linked (`Session.Grown`), and a
request to the engine changes no name (`Session.Asked`).  What an entry adds to the shell is
`Session.Entered`.
-/

namespace CallByNeed

open Files Source

/-! ### Sound stores -/

namespace Store

variable {bef aft : Store}

theorem Settled.fresh (settled : bef.Settled) (keeps : bef.Keeps aft)
    (fresh : ∀ {a th}, bef.thunk? a = none →
      aft.thunk? a = some th → ∃ t env x, th = .suspended t env (some x)) : aft.Settled := by
  intro a forcing
  obtain ⟨th, held, phase⟩ := Option.map_eq_some_iff.mp forcing
  cases ely : bef.thunk? a with
  | none =>
    obtain ⟨t, env, x, rfl⟩ := fresh ely held
    cases phase
  | some former =>
    rw [keeps ely] at held
    cases held
    apply settled a
    grind [phase?]

theorem Writable.fresh (wr : bef.Writable) (keeps : bef.Keeps aft)
    (fresh : ∀ {a th}, bef.thunk? a = none →
      aft.thunk? a = some th → ∃ t env x, th = .suspended t env (some x)) : aft.Writable := by
  intro a th held unforced
  cases ely : bef.thunk? a with
  | none =>
    obtain ⟨t, env, x, rfl⟩ := fresh ely held
    rfl
  | some former =>
    rw [keeps ely] at held
    cases held
    exact wr a _ ely unforced

end Store

section Reached

variable {host : Host} {bef aft : Store}

section

variable (reached : ReachedBy host bef aft)

include reached

theorem ReachedBy.settles : Settles bef aft :=
  Kept.reached (fun s settled wr => ⟨settled, wr, .refl s⟩) (fun cfg _ => kept_settles cfg) reached

theorem ReachedBy.tables : aft.tables = bef.tables := by
  induction reached with
  | start => rfl
  | request _ _ perf _ ih => exact (Request.logs _ perf).tables.trans ih

theorem ReachedBy.wired {ms : List Module} (wired : Wired ms bef) : Wired ms aft := by
  induction reached with
  | start => exact wired
  | request _ _ perf _ ih => exact ih.logs (Request.logs _ perf)

end

end Reached

variable {ss aft bef : Session} {n : Nat} {r : Except Failure Unit}

namespace Session

/-- What holds of a session between its operations: its modules share their thunks, none of
which is being evaluated, and the shell has a table of its own. -/
structure Sound (ss : Session) : Prop where
  wired : Wired ss.linked ss.engine.store
  apart : ∀ lk ∈ ss.modules, lk.table ≠ ss.shell.table
  settled : ss.engine.store.Settled
  writable : ss.engine.store.Writable

/-- What a session has read is what the files say. -/
def Faithful (ss : Session) : Prop := ss.places.Said ss.sources

/-! ### Loading -/

/-- A session in which files were read, and modules linked behind those that were there. -/
structure Grown (bef : Session) (added : Modules) (aft : Session) : Prop where
  modules : aft.modules = bef.modules ++ added
  links : bef.engine.store.Links aft.engine.store
  realized : ∀ lk ∈ added, ∃ src, Realizes aft.modules bef.engine.store aft.engine.store src lk
  wired : Wired bef.linked bef.engine.store → Wired aft.linked aft.engine.store
  places : aft.places = bef.places
  faithful : bef.Faithful → aft.Faithful
  settings : aft.settings = bef.settings
  numerals : aft.numerals = bef.numerals
  main : aft.main = bef.main
  shell : aft.shell = bef.shell
  results : aft.results = bef.results

namespace Grown

variable {added : Modules}

theorem shelved (said : bef.places.Said bef.sources → bef.places.Said sh.sources) :
    bef.Grown [] (bef.shelved sh) where
  modules := (List.append_nil _).symm
  links := .refl _
  realized := by simp
  wired := id
  places := rfl
  faithful := said
  settings := rfl
  numerals := rfl
  main := rfl
  shell := rfl
  results := rfl

theorem printed (ss : Session) (cs : Console) : ss.Grown [] { ss with console := cs } :=
  have nothing : ss.Grown [] (ss.shelved ⟨ss.sources, cs⟩) := shelved id
  nothing

theorem extended
    (rsd : resolve coll bef.modules bef.engine.store = .ok (added, s))
    (said : bef.places.Said bef.sources → bef.places.Said sh.sources) (cs : Console) :
    bef.Grown added ((bef.shelved sh).extended added s cs) where
  modules := rfl
  links := resolve_store_links rsd
  realized := by
    intro lk mem
    obtain ⟨_, _, realized⟩ := resolve_realizes rsd
    obtain ⟨src, _, realizes⟩ := realized lk mem
    exact ⟨src, realizes⟩
  wired := by
    intro wired
    have exporters : ∀ ex ∈ bef.modules, ex ∈ bef.linked := fun ex mem => List.mem_cons_of_mem _ mem
    obtain ⟨_, kept, _, _⟩ := resolve_wired wired exporters rsd
    have all := kept added.length
    rw [List.take_length] at all
    exact all.perm List.perm_append_comm
  places := rfl
  faithful := said
  settings := rfl
  numerals := rfl
  main := rfl
  shell := rfl
  results := rfl

theorem sound (grown : bef.Grown added aft) (sound : bef.Sound) : aft.Sound where
  wired := grown.wired sound.wired
  apart := by
    intro lk mem
    rw [grown.modules, List.mem_append] at mem
    rw [grown.shell]
    rcases mem with old | new
    · exact sound.apart lk old
    · obtain ⟨_, realizes⟩ := grown.realized lk new
      have placed := sound.wired.placed bef.shell List.mem_cons_self
      exact (Nat.lt_of_lt_of_le placed realizes.new).ne'
  settled := sound.settled.fresh grown.links.keeps grown.links.fresh
  writable := sound.writable.fresh grown.links.keeps grown.links.fresh

/-- The names of a module that was there stay as they are. -/
theorem table (grown : bef.Grown added aft) (sound : bef.Sound) {lk : Module}
    (mem : lk ∈ bef.linked) : aft.engine.store.table lk.table = bef.engine.store.table lk.table :=
  grown.links.tables _ (sound.wired.placed lk mem)

end Grown

/-- Loading a module reads files and links modules, whatever comes of it. -/
theorem Loads.grown {id : String} {r : Except Failure Module} (loads : ss.Loads n id (r, aft)) :
    ∃ added, ss.Grown added aft ∧ ∀ lk, r = .ok lk → lk ∈ aft.modules ∧ lk.id = id := by
  have kept : ∀ {ans sh}, collect ss.places n id ⟨ss.sources, ss.console⟩ = (ans, sh) →
      ss.places.Said ss.sources → ss.places.Said sh.sources := by
    grind [collect_said]
  cases loads with
  | unread read => exact ⟨[], .shelved (kept read), by simp⟩
  | unlinked read failed => exact ⟨[], .shelved (kept read), by simp⟩
  | lost read rsd _ => exact ⟨_, .extended rsd (kept read) _, by simp⟩
  | linked read rsd found =>
    refine ⟨_, .extended rsd (kept read) _, ?_⟩
    rintro lk ⟨rfl⟩
    exact ⟨List.mem_of_find?_eq_some found, by simpa using List.find?_some found⟩

/-! ### Requests -/

/-- An action that changes nothing but the console and the engine. -/
def Framed {α : Type} (ac : Act α) : Prop :=
  ∀ ss, ∃ r cs e, ac ss = (r, { ss with console := cs, engine := e })

namespace Framed

variable {α β : Type}

theorem printing {ac : Act α} (prints : Prints ac) : Framed ac := by
  intro ss
  obtain ⟨r, cs, ran⟩ := prints ss
  grind

theorem bind {ac : Act α} {next : α → Act β} (fst : Framed ac) (rest : ∀ v, Framed (next v)) :
    Framed (ac >>= next) := by
  intro ss
  obtain ⟨r, cs, e, began⟩ := fst ss
  cases r with
  | error fa => exact ⟨.error fa, cs, e, Action.bind_error began _⟩
  | ok v =>
    obtain ⟨r, cs, e, ended⟩ := rest v { ss with console := cs, engine := e }
    grind [Action.bind_ok]

theorem request (ac : Settings → Eval α) : Framed (request ac) :=
  fun _ => ⟨_, _, _, request_eq Prod.mk.eta.symm⟩

theorem reads : Framed (get : Act Session) := fun ss => ⟨.ok ss, ss.console, ss.engine, rfl⟩

theorem pure (v : α) : Framed (pure v : Act α) := printing (.pure v)

theorem lift (ans : Except Failure α) : Framed (liftM ans : Act α) := by
  cases ans <;> exact fun ss => ⟨_, ss.console, ss.engine, rfl⟩

theorem evaluate (n : Nat) (x : Name) (own : Option Module) : Framed (evaluate n x own) := by
  intro ss
  cases found : ss.engine.store.find x (ss.scopeOf own).env with
  | none => exact ⟨_, ss.console, ss.engine, evaluate_of_lost found n⟩
  | some a =>
    obtain ⟨r, cs, e, asked⟩ := Framed.request (fun cfg => force cfg n (some a)) ss
    exact ⟨r, cs, e, (evaluate_of_found found n).trans asked⟩

theorem showReduced (n : Nat) (v : Value) : Framed (showReduced n v) := by
  have nums : Framed (numberText n v) := by
    refine reads.bind fun ss => ?_
    split
    · exact (request _).bind fun _ => .lift _
    · exact .pure none
  refine nums.bind fun tx => ?_
  cases tx with
  | some tx => exact .pure tx
  | none => exact (request _).bind fun _ => .pure _

theorem render (n : Nat) (v : Value) : Framed (render n v) := by
  intro ss
  obtain ⟨r, cs, e, reduced⟩ := showReduced n v ss
  unfold Session.render
  rw [reduced]
  split
  · rename_i lim _ _ limited
    cases limited
    have warns : Framed (do warn (noNormalForm v lim); Pure.pure v.text : Act String) :=
      printing ((Prints.warn _).bind fun _ => .pure _)
    obtain ⟨r, cs, e, warned⟩ := warns { ss with
      console := cs
      engine := e }
    grind
  grind

end Framed

/-- A session after requests to its engine. -/
structure Asked (bef aft : Session) : Prop where
  later : bef.Later aft
  places : aft.places = bef.places
  sources : aft.sources = bef.sources
  results : aft.results = bef.results

theorem asked_of_framed {α : Type} {ac : Act α} (framed : Framed ac) (continues : Continues ac)
    {r : Except Failure α} (ran : ac ss = (r, aft)) (ended : r ≠ .error .outOfFuel) :
    ss.Asked aft := by
  have later := continues ran ended
  obtain ⟨_, cs, e, same⟩ := framed ss
  rw [same] at ran
  cases ran
  exact ⟨later, rfl, rfl, rfl⟩

theorem Asked.faithful (asked : bef.Asked aft) (faithful : bef.Faithful) : aft.Faithful := by
  rw [Faithful, asked.places, asked.sources]
  exact faithful

theorem Asked.sound (asked : bef.Asked aft) (sound : bef.Sound) :
    aft.Sound ∧ bef.engine.store.Evolves aft.engine.store := by
  obtain ⟨settled, wr, evolves⟩ := asked.later.reached.settles sound.settled sound.writable
  have lk : aft.linked = bef.linked := by
    rw [Session.linked, Session.linked, asked.later.shell, asked.later.modules]
  have apart : ∀ lk ∈ aft.modules, lk.table ≠ aft.shell.table := by
    rw [asked.later.shell, asked.later.modules]
    exact sound.apart
  exact ⟨⟨lk ▸ asked.later.reached.wired sound.wired, apart, settled, wr⟩, evolves⟩

/-! ### Entries -/

/-- A session in which an entry was refused: modules may have been linked for it, each of them
completely, and thunks evaluated.  All else is as it was. -/
structure Refused (bef aft : Session) : Prop where
  sound : aft.Sound
  linked : ∃ added, aft.modules = bef.modules ++ added ∧
    ∀ linked ∈ added, ∃ src, Realizes aft.modules bef.engine.store aft.engine.store src linked
  tables : ∀ linked ∈ bef.linked,
    aft.engine.store.table linked.table = bef.engine.store.table linked.table
  evolves : bef.engine.store.Evolves aft.engine.store
  places : aft.places = bef.places
  faithful : bef.Faithful → aft.Faithful
  main : aft.main = bef.main
  shell : aft.shell = bef.shell
  results : aft.results = bef.results

/-- What all entries leave as it is when they are added. -/
structure Accepted (bef aft : Session) : Prop where
  sound : aft.Sound
  modules : ∃ added, aft.modules = bef.modules ++ added
  tables : ∀ lk ∈ bef.modules,
    aft.engine.store.table lk.table = bef.engine.store.table lk.table
  evolves : bef.engine.store.Evolves aft.engine.store
  places : aft.places = bef.places
  faithful : bef.Faithful → aft.Faithful
  main : aft.main = bef.main

/-- What an entry adds to a session, and only that. -/
inductive Entered (bef : Session) : Source.Entry → Session → Prop
  /-- The names of an import, each of them for the thunk of the exporter. -/
  | imports {stm : Import} {ex : Module} {aft : Session}
      (located : bef.places.locate stm.source none = .ok ex.id)
      (mem : ex ∈ aft.modules)
      (xs : aft.shell.names aft.engine.store =
        bef.shell.names bef.engine.store ++ stm.items.map ImportItem.localName)
      (aliases : ∀ itm ∈ stm.items, ∃ d, ex.declaration? itm.name = some d ∧
        aft.engine.store.find itm.localName aft.shell.env = some d.thunk)
      (shl : aft.shell = bef.shell) (rss : aft.results = bef.results) :
      Entered bef (.imports stm) aft
  /-- A declaration whose thunk is new and not evaluated. -/
  | binds {bn : Binding} {th : Address} {aft : Session}
      (new : bef.engine.store.thunk? th = none)
      (unforced : aft.engine.store.thunk? th =
        some (.suspended bn.term bef.shell.env (some bn.name)))
      (xs : aft.shell.names aft.engine.store = bef.shell.names bef.engine.store ++ [bn.name])
      (found : aft.engine.store.find bn.name aft.shell.env = some th)
      (shl : aft.shell = bef.shell.adding (bn.declaration th))
      (ms : aft.modules = bef.modules) (rss : aft.results = bef.results) :
      Entered bef (.binds bn) aft
  /-- The text of a value. -/
  | expression {t : Term} {tx : String} {aft : Session}
      (rss : aft.results = bef.results ++ [tx])
      (table : aft.engine.store.table bef.shell.table = bef.engine.store.table bef.shell.table)
      (shl : aft.shell = bef.shell) (ms : aft.modules = bef.modules) :
      Entered bef (.expression t) aft

/-- The outcomes of an entry. -/
inductive Handled (bef : Session) (en : Source.Entry) :
    Except Failure Unit × Session → Prop
  | refused {fa : Failure} {aft : Session} (refused : bef.Refused aft) :
      Handled bef en (.error fa, aft)
  | entered {aft : Session} (accepted : bef.Accepted aft)
      (entered : bef.Entered en aft) : Handled bef en (.ok (), aft)

theorem Grown.refused {added : Modules} (grown : bef.Grown added aft) (sound : bef.Sound) :
    bef.Refused aft where
  sound := grown.sound sound
  linked := ⟨added, grown.modules, grown.realized⟩
  tables _ mem := grown.table sound mem
  evolves _ _ held := .inl (grown.links.keeps held)
  places := grown.places
  faithful := grown.faithful
  main := grown.main
  shell := grown.shell
  results := grown.results

theorem Asked.refused (asked : bef.Asked aft) (sound : bef.Sound) : bef.Refused aft := by
  obtain ⟨soundAfter, evolves⟩ := asked.sound sound
  have tbs := asked.later.reached.tables
  exact {
    sound := soundAfter
    linked := ⟨[], by rw [asked.later.modules, List.append_nil], by simp⟩
    tables := fun lk _ => by rw [Store.table, Store.table, tbs]
    evolves
    places := asked.places
    faithful := asked.faithful
    main := asked.later.main
    shell := asked.later.shell
    results := asked.results }

theorem find_append (dst : ents.names.Nodup) (new : x ∉ table.names)
    {th : Option Address} (mem : (x, th) ∈ ents) : Table.find (table ++ ents) x = th := by
  have absent : table.lookup x = none := by
    rw [List.lookup_eq_none_iff]
    intro en listed
    rw [bne_iff_ne]
    rintro rfl
    exact new (List.mem_map_of_mem listed)
  have found := Table.find_of_mem dst mem
  grind [Table.find]

/-- The names of an import are found, each with the thunk of the exporter. -/
theorem find_imported {lk : Module} {aft : Store}
    (placed : lk.table < s.tables.size) (impd : lk.importFrom ex its s = .ok aft)
    (mem : itm ∈ its) :
    ∃ d, ex.declaration? itm.name = some d ∧ aft.find itm.localName lk.env = some d.thunk := by
  have adds := Module.importFrom_adds placed impd
  obtain ⟨_, checked, _⟩ := ok_of_bind impd
  obtain ⟨exported, dst, new⟩ := Module.checkItems_ok_iff.mp checked
  obtain ⟨d, dcd, _⟩ :=
    Module.declaration?_of_exports (List.contains_iff_mem.mpr (exported itm mem))
  refine ⟨d, dcd, ?_⟩
  have en : (itm.localName, some d.thunk) ∈ Module.importEntries ex its :=
    List.mem_map.mpr ⟨itm, mem, by rw [dcd, Option.map_some]⟩
  rw [← Module.importEntries_names ex] at dst
  rw [Module.env, Store.find, adds.table]
  exact find_append dst (new itm mem).2 en

section Imports

variable {mid : Session} {added : Modules} {ex : Module} {stm : Import} {s : Store}

/-- The session in which an import was bound, after its module was loaded. -/
def importing (mid : Session) (s : Store) : Session :=
  { mid with engine := { mid.engine with store := s } }

theorem accepted_importing (sound : bef.Sound) (grown : bef.Grown added mid)
    (mem : ex ∈ mid.modules) (impd : mid.shell.importFrom ex stm.items mid.engine.store = .ok s) :
    bef.Accepted (mid.importing s) := by
  have soundMiddle := grown.sound sound
  have placed := soundMiddle.wired.placed mid.shell List.mem_cons_self
  obtain ⟨wired, binds⟩ := Module.importFrom_wired soundMiddle.wired placed
    (List.mem_cons_of_mem _ mem) impd
  constructor
  case sound =>
    exact ⟨wired, soundMiddle.apart, soundMiddle.settled.fresh binds.keeps binds.fresh,
      soundMiddle.writable.fresh binds.keeps binds.fresh⟩
  case modules => exact ⟨added, grown.modules⟩
  case tables =>
    intro lk listed
    have o : lk.table ≠ mid.shell.table := by
      rw [grown.shell]
      exact sound.apart lk listed
    exact (binds.others _ o).trans (grown.table sound (List.mem_cons_of_mem _ listed))
  case evolves =>
    intro a th held
    exact .inl (binds.keeps (grown.links.keeps held))
  case places => exact grown.places
  case faithful => exact grown.faithful
  case main => exact grown.main

theorem entered_importing (sound : bef.Sound) (grown : bef.Grown added mid)
    (located : bef.places.locate stm.source none = .ok ex.id) (mem : ex ∈ mid.modules)
    (impd : mid.shell.importFrom ex stm.items mid.engine.store = .ok s) :
    bef.Entered (.imports stm) (mid.importing s) := by
  have placed := (grown.sound sound).wired.placed mid.shell List.mem_cons_self
  have adds := Module.importFrom_adds placed impd
  have same : mid.shell.names mid.engine.store = bef.shell.names bef.engine.store := by
    rw [grown.shell, Module.names, Module.names, grown.table sound List.mem_cons_self]
  refine .imports located mem ?_ ?_ grown.shell grown.results
  · have xs := Module.names_adds adds
    rw [Module.importEntries_names, same] at xs
    exact xs
  · exact fun itm listed => find_imported placed impd listed

end Imports

theorem addImport_handled (sound : ss.Sound) {stm : Import} (ran : addImport n stm ss = (r, aft)) :
    ss.Handled (.imports stm) (r, aft) := by
  have unchanged : ss.Grown [] ss := .printed ss ss.console
  rw [addImport, Action.get_bind] at ran
  cases located : ss.places.locate stm.source none with
  | error fa =>
    rw [located, Action.lift_error_bind] at ran
    cases ran
    exact .refused (unchanged.refused sound)
  | ok id =>
    rw [located, Action.lift_ok_bind] at ran
    have loads := loadModule_loads ss n id
    rcases loaded : loadModule n id ss with ⟨oc, mid⟩
    rw [loaded] at loads
    obtain ⟨added, grown, known⟩ := loads.grown
    cases oc with
    | error fa =>
      rw [Action.bind_error loaded] at ran
      cases ran
      exact .refused (grown.refused sound)
    | ok ex =>
      obtain ⟨mem, rfl⟩ := known ex rfl
      rw [Action.bind_ok loaded, Action.get_bind] at ran
      cases impd : mid.shell.importFrom ex stm.items mid.engine.store with
      | error er =>
        rw [impd] at ran
        cases ran
        exact .refused (grown.refused sound)
      | ok s =>
        rw [impd] at ran
        cases ran
        exact .entered (accepted_importing sound grown mem impd)
          (entered_importing sound grown located mem impd)

theorem addBinding_handled (sound : ss.Sound) (ran : addBinding bn ss = (r, aft)) :
    ss.Handled (.binds bn) (r, aft) := by
  have unchanged : ss.Grown [] ss := .printed ss ss.console
  rw [addBinding, Action.get_bind] at ran
  cases defined : ss.shell.define bn ss.engine.store with
  | error er =>
    rw [defined] at ran
    cases ran
    exact .refused (unchanged.refused sound)
  | ok oc =>
    obtain ⟨a, shl, s⟩ := oc
    rw [defined] at ran
    cases ran
    have placed := sound.wired.placed ss.shell List.mem_cons_self
    obtain ⟨wired, binds, table, _⟩ := Module.define_wired sound.wired defined
    obtain ⟨rfl, rfl, adds, held⟩ := Module.define_adds placed defined
    have new : ss.engine.store.thunk? ss.engine.store.size = none := by
      rw [Store.thunk?, Array.getElem?_eq_none_iff]
      exact Nat.le_refl _
    refine .entered ⟨⟨wired, ?_, ?_, ?_⟩, ⟨[], (List.append_nil _).symm⟩, ?_, ?_, rfl,
      id, rfl⟩ (.binds new held ?_ ?_ rfl rfl rfl)
    · exact fun lk listed => sound.apart lk listed
    · exact sound.settled.fresh binds.keeps binds.fresh
    · exact sound.writable.fresh binds.keeps binds.fresh
    · exact fun lk listed => binds.others _ (sound.apart lk listed)
    · exact fun _ _ kept => .inl (binds.keeps kept)
    · exact Module.names_adds adds
    · refine wired.own _ List.mem_cons_self (bn.declaration ss.engine.store.size) ?_
      exact List.mem_append_right _ List.mem_cons_self

theorem addExpression_handled (sound : ss.Sound) (ran : addExpression n t ss = (r, aft))
    (ended : r ≠ .error .outOfFuel) : ss.Handled (.expression t) (r, aft) := by
  -- evaluating and rendering are requests, and the rest adds the text to the results
  have framed : Framed (do
      let v ← request fun cfg =>
        CallByNeed.evaluate cfg n t ss.shell.env
      render n v) :=
    (Framed.request _).bind fun v => .render n v
  have continues : Continues (do
      let v ← request fun cfg =>
        CallByNeed.evaluate cfg n t ss.shell.env
      render n v) :=
    (Continues.request (.evaluate t ss.shell.env) fun _ _ => rfl).bind fun v => .render n v
  rw [addExpression, Action.get_bind, ← bind_assoc] at ran
  rcases Action.bind_cases ran with ⟨fa, rfl, failed⟩ | ⟨tx, mid, rendered, ⟨⟩⟩
  · have asked := asked_of_framed framed continues failed (by simpa using ended)
    exact .refused (asked.refused sound)
  · have asked := asked_of_framed framed continues rendered (by simp)
    have refused := asked.refused sound
    have rss : mid.results ++ [tx] = ss.results ++ [tx] := by
      rw [asked.results]
    refine .entered ⟨?_, ⟨[], ?_⟩, ?_, refused.evolves, refused.places, refused.faithful,
      refused.main⟩
      (.expression rss (refused.tables _ List.mem_cons_self) refused.shell asked.later.modules)
    · exact ⟨refused.sound.wired, refused.sound.apart, refused.sound.settled,
        refused.sound.writable⟩
    · rw [List.append_nil]
      exact asked.later.modules
    · exact fun lk listed => refused.tables lk (List.mem_cons_of_mem _ listed)

section Console

variable (cs : Console)

theorem Entered.console {en : Source.Entry} (entered : ss.Entered en aft) (new : Console) :
    ({ ss with console := cs } : Session).Entered en { aft with console := new } := by
  cases entered with
  | imports located mem xs aliases shl rss => exact .imports located mem xs aliases shl rss
  | binds new unforced xs found shl ms rss => exact .binds new unforced xs found shl ms rss
  | expression rss table shl ms => exact .expression rss table shl ms

theorem Handled.of_registered {en : Source.Entry}
    (handled : ({ ss with console := cs } : Session).Handled en (r, aft)) :
    ss.Handled en (r, aft) := by
  cases handled with
  | refused refused =>
    exact .refused ⟨refused.sound, refused.linked, refused.tables, refused.evolves,
      refused.places, refused.faithful, refused.main, refused.shell, refused.results⟩
  | entered accepted entered =>
    exact .entered ⟨accepted.sound, accepted.modules, accepted.tables, accepted.evolves,
      accepted.places, accepted.faithful, accepted.main⟩ (entered.console ss.console aft.console)

theorem Handled.cleared {en : Source.Entry} (handled : ss.Handled en (.ok (), aft)) :
    ss.Handled en (.ok (), { aft with console := cs }) := by
  cases handled with
  | entered accepted entered =>
    exact .entered ⟨⟨accepted.sound.wired, accepted.sound.apart, accepted.sound.settled,
      accepted.sound.writable⟩, accepted.modules, accepted.tables, accepted.evolves,
      accepted.places, accepted.faithful, accepted.main⟩ (entered.console ss.console cs)

end Console

/-- What becomes of a line that is typed into the shell. -/
theorem add_handled (sound : ss.Sound) {ln : String} {num : LineNumber}
    (ran : add n ln num ss = (r, aft)) (ended : r ≠ .error .outOfFuel) :
    (∃ ft, parseEntry ln = .error ft ∧ r = .error (.parse ft) ∧
      ss.Refused aft) ∨ ∃ en, parseEntry ln = .ok en ∧ ss.Handled en (r, aft) := by
  let started : Session := { ss with console := ss.console.register shellId ⟨some ln, num⟩ }
  have soundStarted : started.Sound := ⟨sound.wired, sound.apart, sound.settled, sound.writable⟩
  have registers : (onConsole (·.register shellId ⟨some ln, num⟩)) ss = (.ok (), started) := rfl
  -- the line is cleared when the entry was added
  have handles : ∀ {en : Source.Entry} {ac : Act Unit},
      (∀ {oc mid}, ac started = (oc, mid) → oc ≠ .error .outOfFuel →
        started.Handled en (oc, mid)) →
      (ac >>= fun _ => onConsole (·.clear shellId)) started = (r, aft) →
      ss.Handled en (r, aft) := by
    intro en ac handled perf
    rcases Action.bind_cases perf with ⟨fa, rfl, stopped⟩ | ⟨done, mid, began, ⟨⟩⟩
    · exact (handled stopped ended).of_registered _
    · exact ((handled began (by simp)).of_registered _).cleared _
  rw [add, Action.bind_ok registers] at ran
  cases pd : parseEntry ln with
  | error ft =>
    have thrown : (throw (.parse ft) : Act Unit) started = (.error (.parse ft), started) := rfl
    rw [pd] at ran
    dsimp only at ran
    rw [Action.bind_error thrown] at ran
    obtain ⟨same, rfl⟩ := Prod.mk.inj ran
    refine .inl ⟨ft, rfl, same.symm, ?_⟩
    exact (Grown.printed ss started.console).refused sound
  | ok en =>
    rw [pd] at ran
    refine .inr ⟨en, rfl, ?_⟩
    cases en with
    | imports stm => grind [addImport_handled]
    | binds bn => exact handles (fun began _ => addBinding_handled soundStarted began) ran
    | expression t => exact handles (addExpression_handled soundStarted) ran

end Session

end CallByNeed
