import CallByNeed.Proofs.Sessions
import CallByNeed.Proofs.Wiring

/-!
# Evaluated at most once in a session

Modules are linked and loaded into a session, entries are typed into its shell
and requests are made of its engine, in any order and with any outcome.
`Session.evaluates_once` says what holds of all of this: a thunk that has its
value keeps it, it has its value when its term is gone, and the evaluation of
each binding is completed at most once, whoever imports it.
-/

namespace CallByNeed

open Source

/-- What can be done in a session. -/
inductive Operation where
  /-- Links modules and adds them to those of the session. -/
  | resolve (srcs : Sources)
  | load (ph : String)
  | add (ln : String) (num : LineNumber)
  /-- Asks the engine, with any host and any bound on the steps. -/
  | request (cfg : Settings) (rq : Request)

/-- The session after an operation, which may have failed. -/
def Operation.perform (n : Nat) (ss : Session) : Operation → Session
  | .resolve srcs =>
    match CallByNeed.resolve srcs ss.modules ss.engine.store with
    | .error _ => ss
    | .ok (added, s) =>
      { ss with
        modules := added.foldl Modules.insert ss.modules
        engine := { ss.engine with store := s } }
  | .load ph => (Session.load n ph ss).2
  | .add ln num => (Session.add n ln num ss).2
  | .request cfg asked =>
    (Session.request (fun _ => asked.perform cfg n) ss).2

section Completed

variable (cfg : Settings) (n : Nat)

/-- An engine whose events were printed. -/
def Engine.told (e : Engine) : Engine := { e with events := #[] }

/-- The evaluations that showing a value completes. -/
def showCompletions (numerals : Bool) (v : Value) (e : Engine) : List Address :=
  if numerals then
    (Request.number v).completions cfg n e ++
      match number cfg n v e with
      | (.ok none, e) => (Request.normalize v).completions cfg n e.told
      | _ => []
  else (Request.normalize v).completions cfg n e

/-- The evaluations that an expression typed into the shell completes. -/
def entryCompletions (numerals : Bool) (t : Term) (env : Env) (e : Engine) :
    List Address :=
  (Request.evaluate t env).completions cfg n e ++
    match evaluate cfg n t env e with
    | (.ok v, e) => showCompletions cfg n numerals v e.told
    | _ => []

end Completed

/-- The evaluations that an operation completes, in order. -/
def Operation.completions (n : Nat) (ss : Session) : Operation → List Address
  | .resolve _ => []
  | .load _ => []
  | .add ln _ =>
    match parseEntry ln with
    | .ok (.expression t) =>
      entryCompletions ss.settings n ss.numerals t ss.shell.env ss.engine
    | _ => []
  | .request cfg asked => asked.completions cfg n ss.engine

namespace Session

/-- The session after operations. -/
def afterAll (n : Nat) (ss : Session) (ops : List Operation) : Session :=
  ops.foldl (Operation.perform n) ss

/-- The evaluations that operations complete, in order. -/
def log (n : Nat) (ss : Session) : List Operation → List Address
  | [] => []
  | opn :: ops =>
    opn.completions n ss ++ (opn.perform n ss).log n ops

/-- The modules of a session, its shell's included. -/
def linked (ss : Session) : List Module := ss.shell :: ss.modules

end Session

/-! ### What is kept -/

/-- What a log says of the thunks of a store: exactly the thunks in it have been
evaluated, apart from those without a name that had their value from the
start. -/
structure Store.Told (s : Store) (log : List Address) : Prop where
  coherent : s.Coherent
  nodup : log.Nodup
  completed : ∀ a ∈ log, s.phase? a = some .forced
  named : ∀ {a th}, s.thunk? a = some th → th.name ≠ none →
    th.phase = .forced → a ∈ log

/-- Thunks that have their value keep it. -/
def Store.Lasting (bef aft : Store) : Prop :=
  ∀ {a th}, bef.thunk? a = some th → th.phase = .forced → aft.thunk? a = some th

variable {log : List Address} {aft ss : Session}

theorem Store.Told.logs {bef aft : Store} {more : List Address} (told : bef.Told log)
    (logs : bef.Logs more aft) : aft.Told (log ++ more) where
  coherent := logs.coherent told.coherent
  nodup := by
    refine List.nodup_append.mpr ⟨told.nodup, logs.nodup, ?_⟩
    rintro a mem o again rfl
    exact (logs.completes a again).1 (told.completed a mem)
  completed a mem := by
    rcases List.mem_append.mp mem with early | late
    · exact logs.phase_forced (told.completed a early)
    · exact (logs.completes a late).2
  named {a th} held x forced := by
    cases ely : bef.thunk? a with
    | none => exact absurd (logs.added ely held) x
    | some former =>
      obtain ⟨later, heldLater, sameName, _, _, since⟩ := logs.held ely
      rw [held] at heldLater
      cases heldLater
      rcases since forced with already | completed
      · exact List.mem_append_left _ (told.named ely (sameName ▸ x) already)
      simp_all

theorem Store.Told.fresh {bef aft : Store} (told : bef.Told log) (keeps : bef.Keeps aft)
    (fresh : ∀ {a th}, bef.thunk? a = none →
      aft.thunk? a = some th → ∃ t env x, th = .suspended t env (some x)) : aft.Told log where
  coherent {a th} held := by
    cases ely : bef.thunk? a with
    | none => grind [Thunk.suspended, Thunk.code?]
    | some former =>
      rw [keeps ely] at held
      cases held
      exact told.coherent ely
  nodup := told.nodup
  completed a mem := by
    obtain ⟨th, held, phase⟩ := Option.map_eq_some_iff.mp (told.completed a mem)
    simp [phase?, keeps held, phase]
  named {a th} held x forced := by
    cases ely : bef.thunk? a with
    | none =>
      obtain ⟨t, env, given, rfl⟩ := fresh ely held
      cases forced
    | some former =>
      rw [keeps ely] at held
      cases held
      exact told.named ely x forced

namespace Session

/-- The modules of a session share their thunks, and a log tells which of them
were evaluated. -/
structure Orderly (ss : Session) (log : List Address) : Prop where
  wired : Wired ss.linked ss.engine.store
  told : ss.engine.store.Told log

/-- An orderly session stays so, and its thunks keep the values that they
have. -/
def Proceeds (bef : Session) (log : List Address) (aft : Session) : Prop :=
  ∀ ⦃ely⦄, bef.Orderly ely → aft.Orderly (ely ++ log) ∧ bef.engine.store.Lasting aft.engine.store

theorem Proceeds.trans {fst snd thd : Session} {fr bk : List Address} (early : fst.Proceeds fr snd)
    (late : snd.Proceeds bk thd) : fst.Proceeds (fr ++ bk) thd := by
  intro ely st0
  obtain ⟨orderly, lasting⟩ := early st0
  obtain ⟨orderly, lastingMore⟩ := late orderly
  rw [List.append_assoc] at orderly
  exact ⟨orderly, fun held forced => lastingMore (lasting held forced) forced⟩

theorem Proceeds.logs {bef : Session} (lk : aft.linked = bef.linked)
    (logs : bef.engine.store.Logs log aft.engine.store) : bef.Proceeds log aft := by
  intro ely st0
  exact ⟨⟨lk ▸ st0.wired.logs logs, st0.told.logs logs⟩, fun held forced => logs.forced held forced⟩

theorem Proceeds.same {bef : Session} (lk : aft.linked = bef.linked) (e : aft.engine = bef.engine) :
    bef.Proceeds [] aft := .logs lk (e ▸ .refl _)

/-! ### Requests -/

/-- The session after its engine was asked. -/
def answered (ss : Session) (e : Engine) : Session :=
  { ss with
    console := showEvents ss.console e.events
    engine := e.told }

theorem Proceeds.answered {cfg : Settings} {n : Nat} {rq : Request} {r : Except Stop Answer}
    {e : Engine} (perf : rq.perform cfg n ss.engine = (r, e)) :
    ss.Proceeds (rq.completions cfg n ss.engine) (ss.answered e) := by
  have logs := Request.logs cfg perf
  exact .logs rfl logs

theorem numberText_of_numerals (numerals : ss.numerals = true)
    {r : Except Stop (Option Datum)}
    (counted : number ss.settings n v ss.engine = (r, e)) :
    numberText n v ss = ((r.mapError Stop.failure).bind digits, ss.answered e) := by
  have asked : Session.request (fun cfg => number cfg n v) ss =
      (r.mapError Stop.failure, ss.answered e) := request_eq counted
  rw [numberText, Action.get_bind, if_pos numerals]
  cases r with
  | ok found =>
    rw [Action.bind_ok asked]
    show (liftM (digits found) : Act _) (ss.answered e) = (digits found, ss.answered e)
    cases digits found <;> rfl
  | error stop =>
    rw [Action.bind_error asked]
    rfl

theorem numberText_of_terms (ts : ss.numerals = false) (n : Nat) (v : Value) :
    numberText n v ss = (.ok none, ss) := by
  rw [numberText, Action.get_bind, ts]
  rfl

theorem Proceeds.normalize (ss : Session) (n : Nat) (v : Value) :
    ss.Proceeds ((Request.normalize v).completions ss.settings n ss.engine)
      ((Session.request (fun cfg => CallByNeed.normalize cfg n v) >>=
        fun t => pure t.display : Act String) ss).2 := by
  rcases perf : CallByNeed.normalize ss.settings n v ss.engine with ⟨r, e⟩
  have asked : Session.request (fun cfg => CallByNeed.normalize cfg n v)
      ss = (r.mapError Stop.failure, ss.answered e) := request_eq perf
  have proceeds : ss.Proceeds ((Request.normalize v).completions ss.settings
      n ss.engine) (ss.answered e) := .answered (by simp only [Request.perform, perf]; rfl)
  cases r with
  | ok t =>
    rw [Action.bind_ok asked]
    exact proceeds
  | error stop =>
    rw [Action.bind_error asked]
    exact proceeds

theorem Proceeds.showReduced (ss : Session) (n : Nat) (v : Value) :
    ss.Proceeds (showCompletions ss.settings n ss.numerals v ss.engine) (showReduced n v ss).2 := by
  rw [Session.showReduced]
  cases numerals : ss.numerals with
  | false =>
    rw [Action.bind_ok (numberText_of_terms numerals n v)]
    exact .normalize ss n v
  | true =>
    rcases counted : number ss.settings n v ss.engine with ⟨r, e⟩
    have texts := numberText_of_numerals numerals counted
    have fst : ss.Proceeds ((Request.number v).completions ss.settings
        n ss.engine) (ss.answered e) := .answered (by simp only [Request.perform, counted]; rfl)
    simp only [showCompletions, counted, if_true]
    cases r with
    | error stop =>
      rw [Action.bind_error texts, List.append_nil]
      exact fst
    | ok found =>
      cases found with
      | some dt =>
        rw [List.append_nil]
        have written : numberText n v ss = (if dt.isWritable then .ok (some dt.shown)
          else .error .unwritable, ss.answered e) := texts
        split at written
        · rw [Action.bind_ok written]
          exact fst
        · rw [Action.bind_error written]
          exact fst
      | none =>
        rw [Action.bind_ok texts]
        have snd := Proceeds.normalize (ss.answered e) n v
        exact fst.trans snd

/-! ### Printing -/

/-- An action that changes nothing but the console. -/
def Prints {α : Type} (ac : Act α) : Prop := ∀ ss, ∃ r cs, ac ss = (r, { ss with console := cs })

namespace Prints

variable {α β : Type}

theorem pure (v : α) : Prints (pure v) := fun ss => ⟨.ok v, ss.console, rfl⟩

theorem onConsole (change : Console → Console) : Prints (onConsole change) :=
  fun ss => ⟨.ok (), change ss.console, rfl⟩

theorem warn (nt : Notice) : Prints (warn nt) :=
  fun ss => ⟨(ss.console.warn nt).1, (ss.console.warn nt).2, rfl⟩

theorem bind {ac : Act α} {next : α → Act β} (fst : Prints ac) (rest : ∀ v, Prints (next v)) :
    Prints (ac >>= next) := by
  intro ss
  obtain ⟨r, cs, began⟩ := fst ss
  cases r with
  | error fa => exact ⟨.error fa, cs, Action.bind_error began _⟩
  | ok v =>
    obtain ⟨r, last, ended⟩ := rest v { ss with console := cs }
    grind [Action.bind_ok]

theorem forIn {its : List β} {st : α} {b : β → α → Act (ForInStep α)}
    (prints : ∀ itm st, Prints (b itm st)) : Prints (forIn its st b) := by
  induction its generalizing st with
  | nil => exact .pure st
  | cons itm its ih =>
    rw [List.forIn_cons]
    refine (prints itm st).bind fun step => ?_
    cases step with
    | done st => exact .pure st
    | yield st => exact ih

theorem proceeds {ac : Act α} (prints : Prints ac) (ss : Session) : ss.Proceeds [] (ac ss).2 := by
  obtain ⟨r, cs, ran⟩ := prints ss
  rw [ran]
  exact .same rfl rfl

end Prints

theorem Proceeds.render (ss : Session) (n : Nat) (v : Value) :
    ss.Proceeds (showCompletions ss.settings n ss.numerals v ss.engine) (render n v ss).2 := by
  have reduced := Proceeds.showReduced ss n v
  rcases shown : Session.showReduced n v ss with ⟨r, aft⟩
  rw [shown] at reduced
  unfold Session.render
  rw [shown]
  split
  · rename_i lim tr _ limited
    cases limited
    have prints : Prints (do warn (noNormalForm v lim); pure v.text : Act String) :=
      (Prints.warn _).bind fun _ => .pure _
    have warned := reduced.trans (prints.proceeds aft)
    simp_all
  · exact reduced

theorem Proceeds.addExpression (ss : Session) (n : Nat) (t : Term) :
    ss.Proceeds (entryCompletions ss.settings n ss.numerals t
        ss.shell.env ss.engine) (addExpression n t ss).2 := by
  rw [Session.addExpression, Action.get_bind]
  rcases perf : CallByNeed.evaluate ss.settings n t ss.shell.env ss.engine with ⟨r, e⟩
  have asked : Session.request (fun cfg => CallByNeed.evaluate cfg n t
      ss.shell.env) ss = (r.mapError Stop.failure, ss.answered e) := request_eq perf
  have fst : ss.Proceeds ((Request.evaluate t ss.shell.env).completions
      ss.settings n ss.engine) (ss.answered e) :=
    .answered (by simp only [Request.perform, perf]; rfl)
  simp only [entryCompletions, perf]
  cases r with
  | error stop =>
    rw [Action.bind_error asked, List.append_nil]
    exact fst
  | ok v =>
    rw [Action.bind_ok asked]
    have snd := fst.trans (Proceeds.render (ss.answered e) n v)
    refine Action.bind_stops (ss.Proceeds _) snd fun tx aft rendered => ?_
    rw [rendered] at snd
    have kept : aft.Proceeds [] { aft with results := aft.results ++ [tx] } := .same rfl rfl
    have last := snd.trans kept
    rw [List.append_nil] at last
    exact last

/-! ### Linking -/

theorem addModule_eq (lk : Module) (ss : Session) :
    ∃ r cs, addModule lk ss = (r, { ss with modules := ss.modules.insert lk, console := cs }) := by
  have inserted : (modify fun ss => { ss with
      modules := ss.modules.insert lk } : Act PUnit) ss =
      (.ok ⟨⟩, { ss with modules := ss.modules.insert lk }) := rfl
  have reads : Prints (get : Act Session) := fun ss => ⟨.ok ss, ss.console, rfl⟩
  rw [addModule, Action.bind_ok inserted]
  refine reads.bind (fun ss => ?_) _
  refine (Prints.forIn fun itm st => ?_).bind fun _ => .pure _
  exact (Prints.warn _).bind fun _ => .pure _

/-- Adds modules one after the other. -/
def addModules (added : Modules) : Act PUnit :=
  forIn added PUnit.unit fun lk _ => do
    addModule lk
    pure (ForInStep.yield PUnit.unit)

/-- The first modules of a list are added, all of them unless a warning fails. -/
theorem addModules_spec {added : Modules} {r : Except Failure PUnit}
    (ran : addModules added ss = (r, aft)) :
    aft.engine = ss.engine ∧ aft.shell = ss.shell ∧
      ∃ k, aft.modules = (added.take k).foldl Modules.insert ss.modules := by
  induction added generalizing ss with
  | nil =>
    cases ran
    simp
  | cons fst rest ih =>
    obtain ⟨oc, cs, began⟩ := addModule_eq fst ss
    rw [addModules, List.forIn_cons] at ran
    cases oc with
    | error fa =>
      rw [Action.bind_error (Action.bind_error began _)] at ran
      cases ran
      exact ⟨rfl, rfl, 1, rfl⟩
    | ok done =>
      have stepped : (do addModule fst; pure (.yield ⟨⟩) : Act (ForInStep PUnit)) ss =
          (.ok (.yield ⟨⟩), _) := Action.bind_ok began _
      rw [Action.bind_ok stepped] at ran
      obtain ⟨e, shl, k, ms⟩ := ih ran
      exact ⟨e, shl, k + 1, ms⟩

/-- Modules that were resolved are added to a session, the first of them or
all. -/
theorem Proceeds.resolved {added : Modules} {k : Nat}
    (rsd : resolve srcs ss.modules ss.engine.store = .ok (added, s)) (shl : aft.shell = ss.shell)
    (e : aft.engine.store = s) (ms : aft.modules = (added.take k).foldl Modules.insert ss.modules) :
    ss.Proceeds [] aft := by
  intro log st0
  have exporters : ∀ ex ∈ ss.modules, ex ∈ ss.linked := fun ex mem => List.mem_cons_of_mem _ mem
  obtain ⟨links, kept, nodup, new⟩ := resolve_wired st0.wired exporters rsd
  have taken : (added.take k).Sublist added := List.take_sublist k added
  rw [Modules.insertAll_of_new ((taken.map Module.id).nodup nodup)
    fun lk mem => new lk (taken.mem mem)] at ms
  rw [List.append_nil]
  refine ⟨⟨?_, ?_⟩, ?_⟩
  · rw [e, linked, shl, ms]
    refine (kept k).perm ?_
    rw [Session.linked, ← List.cons_append]
    exact List.perm_append_comm
  · rw [e]
    exact st0.told.fresh links.keeps links.fresh
  · rw [e]
    exact fun held _ => links.keeps held

theorem reading_eq {α : Type} (ac : Files.Reading α) (ss : Session) :
    ∃ r srcs cs, reading ac ss = (r, { ss with sources := srcs, console := cs }) :=
  ⟨(ac ⟨ss.sources, ss.console⟩).1,
    (ac ⟨ss.sources, ss.console⟩).2.sources, (ac ⟨ss.sources, ss.console⟩).2.console, rfl⟩

theorem loadModule_proceeds (ss : Session) (n : Nat) (id : String) :
    ss.Proceeds [] (loadModule n id ss).2 ∧
      ∀ lk, (loadModule n id ss).1 = .ok lk → lk ∈ (loadModule n id ss).2.modules := by
  rw [loadModule, Action.get_bind]
  obtain ⟨r, srcs, cs, coll⟩ := reading_eq (Files.collect ss.places n id) ss
  have fst : ss.Proceeds [] { ss with sources := srcs, console := cs } := .same rfl rfl
  generalize { ss with sources := srcs, console := cs } = mid at coll fst
  cases r with
  | error fa => grind [Action.bind_error]
  | ok srcs =>
    rw [Action.bind_ok coll, Action.get_bind]
    cases rsd : resolve srcs mid.modules mid.engine.store with
    | error er => exact ⟨fst, fun lk returned => by cases returned⟩
    | ok oc =>
      obtain ⟨added, s⟩ := oc
      have written : (set { mid with engine := { mid.engine with store := s } } :
          Act PUnit) mid = (.ok ⟨⟩, { mid with engine := { mid.engine with store := s } }) := rfl
      simp only []
      rw [Action.bind_ok written]
      rcases ran : addModules added
          { mid with engine := { mid.engine with store := s } } with ⟨r, last⟩
      obtain ⟨e, shl, k, ms⟩ := addModules_spec ran
      have proceeds : ss.Proceeds [] last :=
        fst.trans (.resolved rsd shl (congrArg Engine.store e) ms)
      rw [addModules] at ran
      cases r with
      | error fa => grind [Action.bind_error]
      | ok done =>
        rw [Action.bind_ok ran, Action.get_bind]
        cases found : last.modules.find id with
        | none => exact ⟨proceeds, fun lk returned => by cases returned⟩
        | some lk =>
          refine ⟨proceeds, fun o returned => ?_⟩
          cases returned
          exact List.mem_of_find?_eq_some found

theorem Proceeds.load (ss : Session) (n : Nat) (ph : String) : ss.Proceeds [] (load n ph ss).2 := by
  rw [Session.load, Action.get_bind]
  cases rt : ss.places.rootId ph with
  | error fa => exact .same rfl rfl
  | ok id =>
    rw [Action.lift_ok_bind]
    have loaded := (loadModule_proceeds ss n id).1
    refine Action.bind_stops (ss.Proceeds []) loaded fun lk aft ran => ?_
    rw [ran] at loaded
    exact loaded.trans (.same rfl rfl)

theorem Proceeds.addImport (ss : Session) (n : Nat) (stm : Import) :
    ss.Proceeds [] (addImport n stm ss).2 := by
  rw [Session.addImport, Action.get_bind]
  cases located : ss.places.locate stm.source none with
  | error fa => exact .same rfl rfl
  | ok id =>
    rw [Action.lift_ok_bind]
    obtain ⟨loaded, known⟩ := loadModule_proceeds ss n id
    refine Action.bind_stops (ss.Proceeds []) loaded fun ex aft ran => ?_
    rw [ran] at loaded known
    rw [Action.get_bind]
    cases impd : aft.shell.importFrom ex stm.items aft.engine.store with
    | error er => exact loaded
    | ok s =>
      refine loaded.trans ?_
      intro log st0
      have mem : ex ∈ aft.linked := List.mem_cons_of_mem _ (known ex rfl)
      have placed := st0.wired.placed aft.shell List.mem_cons_self
      obtain ⟨wired, binds⟩ := Module.importFrom_wired st0.wired placed mem impd
      rw [List.append_nil]
      exact ⟨⟨wired, st0.told.fresh binds.keeps binds.fresh⟩, fun held _ => binds.keeps held⟩

theorem Proceeds.addBinding (ss : Session) (bn : Binding) :
    ss.Proceeds [] (addBinding bn ss).2 := by
  rw [Session.addBinding, Action.get_bind]
  cases defined : ss.shell.define bn ss.engine.store with
  | error er => exact .same rfl rfl
  | ok oc =>
    obtain ⟨a, shl, s⟩ := oc
    intro log st0
    obtain ⟨wired, binds, _⟩ := Module.define_wired st0.wired defined
    rw [List.append_nil]
    exact ⟨⟨wired, st0.told.fresh binds.keeps binds.fresh⟩, fun held _ => binds.keeps held⟩

theorem Proceeds.add (ss : Session) (n : Nat) (ln : String) (num : LineNumber) :
    ss.Proceeds ((Operation.add ln num).completions n ss) (add n ln num ss).2 := by
  have registered : (onConsole (·.register shellId ⟨some ln, num⟩)) ss = (.ok (),
      { ss with console := ss.console.register shellId ⟨some ln, num⟩ }) := rfl
  rw [Session.add, Action.bind_ok registered]
  generalize given : ({ ss with
    console := ss.console.register shellId ⟨some ln, num⟩ } : Session) = started
  have fst : ss.Proceeds [] started := given ▸ .same rfl rfl
  -- the line is cleared when the entry was added
  have clears : ∀ {log : List Address} {ac : Act Unit}, started.Proceeds log (ac started).2 →
      ss.Proceeds log ((ac >>= fun _ => onConsole (·.clear shellId)) started).2 := by
    intro log ac proceeds
    have both := fst.trans proceeds
    refine Action.bind_stops (ss.Proceeds log) both fun done aft ran => ?_
    have cleared := both.trans ((Prints.onConsole (·.clear shellId)).proceeds (ac started).2)
    simp_all
  simp only [Operation.completions]
  cases pd : parseEntry ln with
  | error ft => exact clears (.same rfl rfl)
  | ok en =>
    cases en with
    | imports stm => exact clears (.addImport started n stm)
    | binds bn => exact clears (.addBinding started bn)
    | expression t =>
      have added := Proceeds.addExpression started n t
      subst given
      exact clears added

end Session

theorem Operation.proceeds (opn : Operation) (n : Nat) (ss : Session) :
    ss.Proceeds (opn.completions n ss) (opn.perform n ss) := by
  cases opn with
  | resolve srcs =>
    simp only [Operation.perform, Operation.completions]
    cases rsd : CallByNeed.resolve srcs ss.modules ss.engine.store with
    | error er => exact .same rfl rfl
    | ok oc =>
      obtain ⟨added, s⟩ := oc
      have all : added.take added.length = added := List.take_length
      exact .resolved rsd rfl rfl (congrArg _ all.symm)
  | load ph => exact .load ss n ph
  | add ln num => exact .add ss n ln num
  | request cfg asked =>
    rcases perf : asked.perform cfg n ss.engine with ⟨r, e⟩
    have answered : Session.request (fun _ => asked.perform cfg n) ss =
        (r.mapError Stop.failure, ss.answered e) := Session.request_eq perf
    simp only [Operation.perform, answered]
    exact .answered perf

namespace Session

theorem Proceeds.afterAll (n : Nat) (ss : Session) (ops : List Operation) :
    ss.Proceeds (ss.log n ops) (ss.afterAll n ops) := by
  induction ops generalizing ss with
  | nil => exact .same rfl rfl
  | cons opn ops ih =>
    exact (opn.proceeds n ss).trans (ih (opn.perform n ss))

theorem Orderly.start (op : SessionOptions) : (start op).Orderly [] := by
  have unheld : ∀ {a th}, (Session.start op).engine.store.thunk? a ≠
      some th := by
    simp [Session.start, Engine.fresh, Module.create, Store.addTable, Store.empty, Store.thunk?]
  have empty : Wired [] .empty := ⟨by simp, by simp, by simp, by simp, .nil⟩
  constructor
  · exact empty.create shellId none
  · exact ⟨fun held => absurd held unheld, .nil, by simp, fun held => absurd held unheld⟩

/-- In a session, whatever is done in it and whatever fails: a thunk is forced if
and only if its term and environment are gone, and then it keeps its value for
ever.  No evaluation is completed twice.  A binding of a module has a thunk of
its own, which holds the term of the binding until its evaluation is completed,
and whatever name a module has for a binding, it stands for that thunk. -/
theorem evaluates_once (op : SessionOptions) (n : Nat) (ops more : List Operation) :
    let ss := (start op).afterAll n ops
    let later := ss.afterAll n more
    let log := (start op).log n ops
    (∀ a th, ss.engine.store.thunk? a = some th →
      (th.phase = .forced ↔ th.code? = none) ∧
      (th.phase = .forced → later.engine.store.thunk? a = some th)) ∧
    log.Nodup ∧
    ((ss.linked.flatMap Module.declarations).map Declaration.thunk).Nodup ∧
    ∀ lk ∈ ss.linked,
      (∀ d ∈ lk.declarations,
        ∃ th, ss.engine.store.thunk? d.thunk = some th ∧
          log.count d.thunk = (if th.phase = .forced then 1 else 0) ∧
          (th.phase ≠ .forced → th.code? = some (d.term, lk.env))) ∧
      ∀ x a, ss.engine.store.find x lk.env = some a →
        Owned ss.linked a := by
  intro ss later log
  obtain ⟨orderly, _⟩ := Proceeds.afterAll n (start op) ops (Orderly.start op)
  obtain ⟨_, lasting⟩ := Proceeds.afterAll n ss more orderly
  rw [List.nil_append] at orderly
  refine ⟨?_, orderly.told.nodup, orderly.wired.distinct, ?_⟩
  · intro a th held
    exact ⟨orderly.told.coherent held, lasting held⟩
  · intro lk mem
    constructor
    · intro d dcd
      obtain ⟨th, held, x, code⟩ := orderly.wired.holds lk mem d dcd
      refine ⟨th, held, ?_, fun unforced => ?_⟩
      · split
        · rename_i forced
          have completed := orderly.told.named held (by simp [x]) forced
          exact List.count_eq_one_of_mem orderly.told.nodup completed
        · rename_i unforced
          refine List.count_eq_zero.mpr fun completed => unforced ?_
          have forced := orderly.told.completed _ completed
          simpa [Store.phase?, held] using forced
      · simp [Thunk.code?, code unforced]
    · intro x a found
      obtain ⟨own, known, d, dcd, given⟩ :=
        orderly.wired.shared lk mem _ (Store.mem_table_of_find found)
      exact ⟨own, known, d, dcd, Option.some.inj given⟩

end Session

end CallByNeed
