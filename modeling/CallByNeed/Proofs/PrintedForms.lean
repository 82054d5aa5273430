import CallByNeed.Proofs.FixedPoints
import CallByNeed.Proofs.Scoping
import CallByNeed.Proofs.WriteOnce

/-!
# Printed normal forms are fixed points

What a value of a parsed program is read back as is printed, typed in again and
evaluated: the same text is printed.  Names of binders are kept, since a normal
form that was read back binds no name twice on a path.
-/

namespace CallByNeed

open Source

/-! ### Parsed programs -/

/-- The bindings of a module are those of a text.  Its imports may have been
changed to refer to other modules by their ids. -/
def Source.ParsedModule.FromText (src : ParsedModule) : Prop :=
  ∃ tx id ph pd, parseModule tx id ph = .ok pd ∧ src.bindings = pd.bindings

/-- What comes of texts: the modules that were linked so far, the store that they
share with everything that was evaluated, and values of the program.  Files are
linked, entries are typed into modules of their own and requests are made in any
order, and the requests may involve values of the host. -/
inductive ParsedProgram : List Module → Store → List Value → Prop where
  | empty : ParsedProgram [] .empty []
  | create {modules store values} (pg : ParsedProgram modules store values) (id : String)
      (ph : Option String) :
      ParsedProgram ((Module.create id ph store).1 :: modules) (Module.create id ph store).2
        values
  | resolve {modules exporters added : Modules} {store aft values srcs}
      (pg : ParsedProgram modules store values)
      (among : ∀ ex ∈ exporters, ex ∈ modules)
      (pd : ∀ src ∈ srcs, ParsedModule.FromText src)
      (rsd : resolve srcs exporters store = .ok (added, aft)) :
      ParsedProgram (added ++ modules) aft values
  | importFrom {modules store aft values lk ex its}
      (pg : ParsedProgram modules store values) (imp : lk ∈ modules)
      (among : ex ∈ modules)
      (impd : lk.importFrom ex its store = .ok aft) :
      ParsedProgram modules aft values
  | define {modules store aft values lk tx bn a next}
      (pg : ParsedProgram modules store values) (among : lk ∈ modules)
      (pd : parseEntry tx = .ok (.binds bn))
      (defined : lk.define bn store = .ok (a, next, aft)) :
      ParsedProgram (next :: modules) aft values
  | request {modules store aft values} (pg : ParsedProgram modules store values)
      (reached : Reached store aft) : ParsedProgram modules aft values
  /-- The value of an expression in a module. -/
  | evaluate {modules values lk tx t cfg n v} {e aft : Engine}
      (pg : ParsedProgram modules e.store values) (among : lk ∈ modules)
      (pd : parseTerm tx = .ok t ∨ parseEntry tx = .ok (.expression t))
      (evaluates : evaluate cfg n t lk.env e = (.ok v, aft)) :
      ParsedProgram modules aft.store (v :: values)
  /-- The value of a name of a module. -/
  | force {modules values lk x a cfg n v} {e aft : Engine}
      (pg : ParsedProgram modules e.store values) (among : lk ∈ modules)
      (found : e.store.find x lk.env = some a)
      (forces : force cfg n (some a) e = (.ok v, aft)) :
      ParsedProgram modules aft.store (v :: values)
  /-- What a value gives for names of modules. -/
  | apply {modules values f args cfg n v} {e aft : Engine}
      (pg : ParsedProgram modules e.store values) (among : f ∈ values)
      (named : ∀ arg ∈ args, ∃ lk ∈ modules, ∃ x a,
        e.store.find x lk.env = some a ∧ arg = some a)
      (applies : apply cfg n f args e = (.ok v, aft)) :
      ParsedProgram modules aft.store (v :: values)

/-! ### Linking -/

/-- The thunks of declarations use no variables. -/
def Scopes.Knows (scs : Scopes) (modules : List Module) : Prop :=
  ∀ lk ∈ modules, ∀ d ∈ lk.declarations, scs d.thunk = some []

section Linking

variable {scs o : Scopes} {modules : Modules} {lk : Module} {store aft : Store}

theorem Scopes.Knows.grow (knows : scs.Knows modules) (grow : scs.Grow size o) :
    o.Knows modules :=
  fun lk mem d listed => grow.keeps (knows lk mem d listed)

theorem Scopes.Knows.cons (fst : scs.Knows [lk]) (rest : scs.Knows modules) :
    scs.Knows (lk :: modules) := by
  intro o mem
  rcases List.mem_cons.mp mem with rfl | later
  · exact fst o List.mem_cons_self
  · exact rest o later

theorem Scopes.Knows.insert (knows : scs.Knows modules) (new : scs.Knows [lk]) :
    scs.Knows (modules.insert lk) := by
  intro o mem
  rcases Modules.mem_insert mem with old | rfl
  · exact knows o old
  · exact new o List.mem_cons_self

section

variable (confined : store.Scoped scs)

include confined

theorem Store.Scoped.addTable : (store.addTable []).2.Scoped scs := by
  refine ⟨fun mem given => ?_, confined.holds⟩
  rw [store.table_addTable] at mem
  exact confined.tables mem given

theorem Module.declare_scoped {th : Option Address}
    (given : ∀ a, th = some a → scs a = some []) (dcd : lk.declare x th store = .ok aft) :
    aft.Scoped scs := by
  obtain ⟨_, rfl⟩ := Module.declare_eq dcd
  refine ⟨fun mem bound => ?_, confined.holds⟩
  rcases Store.mem_table_bind mem with old | rfl
  · exact confined.tables old bound
  · exact given _ bound

theorem Module.bindItems_scoped (knows : scs.Knows [ex])
    (bound : lk.bindItems ex its store = .ok aft) : aft.Scoped scs := by
  induction its generalizing store with
  | nil =>
    cases bound
    exact confined
  | cons itm its ih =>
    obtain ⟨mid, fst, rest⟩ := ok_of_bind bound
    refine ih (Module.declare_scoped confined (fun a given => ?_) fst) rest
    obtain ⟨d, found, rfl⟩ := Option.map_eq_some_iff.mp given
    exact knows ex List.mem_cons_self d (List.mem_of_find?_eq_some found)

theorem Module.importFrom_scoped (knows : scs.Knows [ex])
    (impd : lk.importFrom ex its store = .ok aft) : aft.Scoped scs := by
  obtain ⟨_, _, bound⟩ := ok_of_bind impd
  exact Module.bindItems_scoped confined knows bound

theorem linkImports_scoped (knows : scs.Knows modules)
    (impd : linkImports lk modules ims store = .ok aft) : aft.Scoped scs := by
  induction ims generalizing store with
  | nil =>
    cases impd
    exact confined
  | cons stm stms ih =>
    rw [linkImports] at impd
    split at impd
    · cases impd
    · rename_i ex found
      obtain ⟨mid, fst, rest⟩ := ok_of_bind impd
      have single : scs.Knows [ex] := fun o mem =>
        knows o (List.mem_singleton.mp mem ▸ List.mem_of_find?_eq_some found)
      grind [Module.importFrom_scoped]

theorem Module.define_scoped (knows : scs.Knows [lk]) {next : Module}
    (legible : bn.term.Legible) (defined : lk.define bn store = .ok (a, next, aft)) :
    ∃ o : Scopes, scs.Grow 0 o ∧ aft.Scoped o ∧ o.Knows [next] := by
  obtain ⟨mid, dcd, same⟩ := ok_of_bind defined
  cases same
  have grow := Marks.grow_add confined.fresh []
  have added : (store.alloc (.suspended bn.term lk.env (some bn.name))).2.Scoped
      (scs.add store.size []) := confined.add (.code rfl (by simp [Thunk.suspended]) legible .root)
  have given : ∀ a, some store.size = some a → scs.add store.size [] a = some [] := by simp
  refine ⟨_, grow.weaken, Module.declare_scoped added given dcd, ?_⟩
  intro o mem d listed
  rw [List.mem_singleton.mp mem] at listed
  rcases List.mem_append.mp listed with old | last
  · exact grow.keeps (knows lk List.mem_cons_self d old)
  · rw [List.mem_singleton.mp last]
    exact given _ rfl

theorem linkBindings_scoped (knows : scs.Knows [lk]) {last : Module}
    (legible : ∀ bn ∈ bns, bn.term.Legible) (bound : linkBindings lk bns store = .ok (last, aft)) :
    ∃ o : Scopes, scs.Grow 0 o ∧ aft.Scoped o ∧ o.Knows [last] := by
  induction bns generalizing scs lk store with
  | nil =>
    cases bound
    exact ⟨scs, .refl _ _, confined, knows⟩
  | cons bn bns ih =>
    obtain ⟨⟨a, next, mid⟩, fst, rest⟩ := ok_of_bind bound
    obtain ⟨between, grow, confined, knows⟩ :=
      Module.define_scoped confined knows (legible bn List.mem_cons_self) fst
    obtain ⟨o, more, confined, knows⟩ := ih confined knows
      (fun o mem => legible o (List.mem_cons_of_mem _ mem)) rest
    exact ⟨o, grow.trans more, confined, knows⟩

theorem link_scoped (knows : scs.Knows modules)
    (legible : ∀ bn ∈ src.bindings, bn.term.Legible)
    (done : link src modules store = .ok (lk, aft)) :
    ∃ o : Scopes, scs.Grow 0 o ∧ aft.Scoped o ∧ o.Knows [lk] := by
  obtain ⟨mid, impd, bound⟩ := ok_of_bind done
  have created : scs.Knows [(Module.create src.id (some src.path) store).1] := by
    intro o mem d listed
    rw [List.mem_singleton.mp mem] at listed
    cases listed
  exact linkBindings_scoped (linkImports_scoped confined.addTable knows impd) created legible bound

theorem linkInOrder_scoped {added r : Modules}
    (knows : scs.Knows modules) (new : scs.Knows added)
    (legible : ∀ src ∈ srcs, ∀ bn ∈ src.bindings, bn.term.Legible)
    (done : linkInOrder srcs ids modules added store = .ok (r, aft)) :
    ∃ o : Scopes, scs.Grow 0 o ∧ aft.Scoped o ∧ o.Knows r := by
  induction ids generalizing scs modules added store with
  | nil =>
    cases done
    exact ⟨scs, .refl _ _, confined, new⟩
  | cons id ids ih =>
    rw [linkInOrder] at done
    split at done
    · cases done
    · rename_i src found
      obtain ⟨⟨lk, mid⟩, fst, rest⟩ := ok_of_bind done
      obtain ⟨between, grow, confined, single⟩ := link_scoped confined knows
        (legible src (List.mem_of_find?_eq_some found)) fst
      obtain ⟨o, more, confined, knows⟩ := ih confined ((knows.grow grow).insert single)
        ((new.grow grow).insert single) rest
      exact ⟨o, grow.trans more, confined, knows⟩

theorem resolve_scoped {added : Modules} (knows : scs.Knows modules)
    (pd : ∀ src ∈ srcs, ParsedModule.FromText src)
    (rsd : resolve srcs modules store = .ok (added, aft)) :
    ∃ o : Scopes, scs.Grow 0 o ∧ aft.Scoped o ∧ o.Knows added := by
  obtain ⟨ord, _, done⟩ := ok_of_bind rsd
  refine linkInOrder_scoped confined knows (by simp [Scopes.Knows]) (fun src mem => ?_) done
  obtain ⟨tx, id, ph, original, found, same⟩ := pd src (List.mem_filter.mp mem).1
  rw [same]
  exact legible_of_parseModule found

end

end Linking

/-! ### Values -/

/-- Everything that comes of texts keeps to its scope, and values of the program
use no variables. -/
structure Confines (scs : Scopes) (modules : List Module) (store : Store)
    (values : List Value) : Prop where
  store : store.Scoped scs
  modules : scs.Knows modules
  values : ∀ v ∈ values, v.form.Scoped scs []

namespace Confines

variable {scs o : Scopes} {modules : List Module} {store aft : Store}
  {values : List Value}

theorem grow (confines : Confines scs modules store values) (grow : scs.Grow size o)
    (later : aft.Scoped o) : Confines o modules aft values :=
  ⟨later, confines.modules.grow grow, fun v mem =>
    (confines.values v mem).grow grow (List.Subset.refl [])⟩

theorem withValue (confines : Confines scs modules store values)
    (obtained : scs.Yields [] v aft) : ∃ o : Scopes, Confines o modules aft (v :: values) := by
  obtain ⟨o, grow, later, inside⟩ := obtained
  have grown := confines.grow grow later
  refine ⟨o, later, grown.modules, fun held mem => ?_⟩
  rcases List.mem_cons.mp mem with rfl | old
  · exact inside
  · exact grown.values held old

end Confines

namespace ParsedProgram

variable {modules : List Module} {store : Store} {values : List Value}

theorem confines (pg : ParsedProgram modules store values) :
    ∃ scs : Scopes, Confines scs modules store values := by
  induction pg with
  | empty =>
    refine ⟨fun _ => none, ⟨?_, by simp⟩, by simp [Scopes.Knows], by simp⟩
    simp [Store.table, Store.empty]
  | create _ id ph ih =>
    obtain ⟨scs, confines⟩ := ih
    refine ⟨scs, confines.store.addTable, .cons ?_ confines.modules, confines.values⟩
    simp [Scopes.Knows, Module.create]
  | resolve _ among pd rsd ih =>
    obtain ⟨scs, confines⟩ := ih
    obtain ⟨o, grow, confined, new⟩ := resolve_scoped confines.store
      (fun ex mem => confines.modules ex (among ex mem)) pd rsd
    have grown := confines.grow grow confined
    refine ⟨o, confined, fun lk mem => ?_, grown.values⟩
    rcases List.mem_append.mp mem with added | old
    · exact new lk added
    · exact grown.modules lk old
  | importFrom _ _ among impd ih =>
    obtain ⟨scs, confines⟩ := ih
    have single : scs.Knows [_] := fun o mem =>
      confines.modules o (List.mem_singleton.mp mem ▸ among)
    exact ⟨scs, Module.importFrom_scoped confines.store single impd, confines.modules,
      confines.values⟩
  | define _ among pd defined ih =>
    obtain ⟨scs, confines⟩ := ih
    have single : scs.Knows [_] := fun o mem =>
      confines.modules o (List.mem_singleton.mp mem ▸ among)
    obtain ⟨o, grow, confined, new⟩ :=
      Module.define_scoped confines.store single (legible_of_binds pd) defined
    have grown := confines.grow grow confined
    exact ⟨o, confined, .cons new grown.modules, grown.values⟩
  | request _ reached ih =>
    obtain ⟨scs, confines⟩ := ih
    obtain ⟨o, grow, confined⟩ := Reached.confined reached confines.store
    exact ⟨o, confines.grow grow confined⟩
  | evaluate _ _ pd evaluates ih =>
    obtain ⟨scs, confines⟩ := ih
    have legible := pd.elim legible_of_parseTerm legible_of_expression
    exact confines.withValue (evaluate_scoped confines.store .root legible evaluates)
  | force _ _ found forces ih =>
    obtain ⟨scs, confines⟩ := ih
    exact confines.withValue
      (force_scoped confines.store (confines.store.admits .root found) forces)
  | apply _ among named applies ih =>
    obtain ⟨scs, confines⟩ := ih
    refine confines.withValue (apply_scoped confines.store (confines.values _ among)
      (fun arg mem => ?_) applies)
    obtain ⟨lk, _, x, a, found, rfl⟩ := named arg mem
    exact confines.store.admits .root found

theorem normal {aft : Engine} (pg : ParsedProgram modules e.store values)
    (among : v ∈ values) {r : Term}
    (normalizes : normalize cfg n v e = (.ok r, aft)) :
    r.Legible ∧ r.freeNames = [] ∧ r.isNormal ∧ r.isUnshadowed [] := by
  obtain ⟨scs, confines⟩ := pg.confines
  have read := quotes_of_normalize normalizes
  have counted : e.countStep.store.Scoped scs := confines.store
  obtain ⟨_, _, _, legible, bound⟩ := read.legible counted (confines.values v among)
  have closed : r.freeNames = [] :=
    List.eq_nil_iff_forall_not_mem.mpr fun x free => List.not_mem_nil (bound x free)
  exact ⟨legible, closed, read.normal⟩

end ParsedProgram

/-! ### Sessions -/

namespace Session

variable {ss : Session} {n : Nat} {v : Value} {t : Term} {e : Engine}

theorem request_of_ok {α : Type} {ac : Settings → Eval α} {r : α}
    (ran : ac ss.settings ss.engine = (.ok r, e)) :
    Session.request ac ss = (.ok r, ss.answered e) := by
  rw [request_eq ran]
  rfl

theorem render_of_terms (ts : ss.numerals = false)
    (normalizes : normalize ss.settings n v ss.engine = (.ok t, e)) :
    render n v ss = (.ok t.display, ss.answered e) := by
  have shown : showReduced n v ss = (.ok t.display, ss.answered e) := by
    rw [showReduced, Action.bind_ok (numberText_of_terms ts n v)]
    exact Action.bind_ok (request_of_ok normalizes) _
  simp only [render, shown]

theorem addExpression_of_terms {aft : Engine} (ts : ss.numerals = false)
    (evaluates : CallByNeed.evaluate ss.settings n t ss.shell.env ss.engine = (.ok v, e)) {r : Term}
    (normalizes : normalize ss.settings n v e.told = (.ok r, aft)) :
    ∃ later, addExpression n t ss = (.ok (), later) ∧
      later.results = ss.results ++ [r.display] := by
  have asked : Session.request (fun cfg => CallByNeed.evaluate cfg n t
      ss.shell.env) ss = (.ok v, ss.answered e) := request_of_ok evaluates
  have rendered : render n v (ss.answered e) =
      (.ok r.display, (ss.answered e).answered aft) := render_of_terms ts normalizes
  rw [addExpression, Action.get_bind, Action.bind_ok asked, Action.bind_ok rendered]
  exact ⟨_, rfl, rfl⟩

/-- A printed term that is its own normal form is printed again when it is typed
into the shell. -/
theorem add_fixed (legible : t.Legible) (fixed : t.IsFixed) (ss : Session) (num : LineNumber)
    (ts : ss.numerals = false) (unb : ∀ sts, ss.settings.limit.exceeded sts = false) :
    ∃ enough, ∀ n, enough ≤ n → ∃ later,
      add n t.display num ss = (.ok (), later) ∧ later.results = ss.results ++ [t.display] := by
  obtain ⟨enough, v, mid, evaluates, rest⟩ := fixed.returns ss.settings unb ss.shell.env ss.engine
  obtain ⟨need, aft, normalizes⟩ := rest mid.told
  refine ⟨enough + need, fun n le => ?_⟩
  let started : Session := { ss with
    console := ss.console.register shellId ⟨some t.display, num⟩ }
  have registered : onConsole (·.register shellId ⟨some t.display, num⟩) ss =
      (.ok (), started) := rfl
  have evd : CallByNeed.evaluate started.settings n t started.shell.env
      started.engine = (.ok v, mid) := evaluates n (by omega)
  have shows : started.numerals = false := ts
  obtain ⟨later, added, rss⟩ := addExpression_of_terms shows evd (normalizes n (by omega))
  rw [add, Action.bind_ok registered, parseEntry_display legible]
  exact ⟨_, Action.bind_ok added _, rss⟩

end Session

/-- The normal form of a value of a parsed program is a fixed point: its text
parses as an expression, which is the normal form itself; evaluating it in any
environment and reading its value back gives it again, with the same names of
binders; and typing its text into a shell that shows terms and has no bound on
steps gives the same text as the result. -/
theorem printed_form_fixed {modules : List Module} {values : List Value}
    {e aft : Engine} (pg : ParsedProgram modules e.store values)
    {v : Value} (among : v ∈ values) {cfg : Settings} {n : Nat} {r : Term}
    (normalizes : normalize cfg n v e = (.ok r, aft)) :
    parseEntry r.display = .ok (.expression r) ∧ r.IsFixed ∧
      ∀ (ss : Session) (num : LineNumber), ss.numerals = false →
        (∀ sts, ss.settings.limit.exceeded sts = false) →
        ∃ enough, ∀ n, enough ≤ n → ∃ later,
          Session.add n r.display num ss = (.ok (), later) ∧
            later.results = ss.results ++ [r.display] := by
  obtain ⟨legible, closed, normal, unshadowed⟩ := pg.normal among normalizes
  simp_all [Term.isFixed, parseEntry_display, Session.add_fixed]

/-! ### A program of a file and entries -/

def identityFile : ParsedModule :=
  ⟨"base", "base", [], [⟨"I", .lam "x" (.var "x"), 1⟩]⟩

theorem fromText_identityFile : identityFile.FromText := by
  have pd : parseModule "I = x => x;" "base" "base" = .ok identityFile := by decide +kernel
  exact ⟨_, _, _, _, pd, rfl⟩

theorem parseEntry_main :
    parseEntry "Main = Id Id" = .ok (.binds ⟨"Main", .app (.var "Id") (.var "Id"), 1⟩) := by
  decide +kernel

/-- The file is linked, its name is imported under another one into a module for
entries, and a name is declared there. -/
theorem parsedProgram_identity : ∃ modules main, main ∈ modules ∧ main.env = .root 1 ∧
    ParsedProgram modules identityStore [] := by
  have ord : dependencyOrder [identityFile] [] = .ok ["base"] := by
    simp [dependencyOrder, visitAll, visitImports, identityFile, importedIds]
    rfl
  have rsd : resolve [identityFile] [] .empty =
      .ok ([⟨"base", some "base", 0, [⟨"I", 0, .lam "x" (.var "x"), 1⟩]⟩],
        ⟨#[.suspended (.lam "x" (.var "x")) (.root 0) (some "I")], #[[("I", some 0)]], 0⟩) :=
    resolve_of_order ord
  have lk := ParsedProgram.empty.resolve (by simp) (by simpa using fromText_identityFile) rsd
  have created := lk.create "main" (some "main")
  have impd := created.importFrom List.mem_cons_self (List.mem_cons_of_mem _ List.mem_cons_self)
    (show Module.importFrom ⟨"main", some "main", 1, []⟩ _ [⟨"I", "Id"⟩] _ = .ok _ from rfl)
  have defined := impd.define List.mem_cons_self parseEntry_main
    (show Module.define ⟨"main", some "main", 1, []⟩ _ _ = .ok (1, _, identityStore) from rfl)
  exact ⟨_, _, List.mem_cons_self, rfl, defined⟩

/-- A binder is renamed, and its new name is kept. -/
theorem printed_form_fixed_shadowing : ∃ modules values aft,
    ParsedProgram modules shadowingEngine.store values ∧ shadowingValue ∈ values ∧
    normalize ⟨countingHost, none⟩ 9 shadowingValue shadowingEngine =
      (.ok (.lam "x" (.lam "x'" (.var "x"))), aft) ∧
    parseEntry "(x, x') => x" = .ok (.expression (.lam "x" (.lam "x'" (.var "x")))) ∧
    (Term.lam "x" (.lam "x'" (.var "x"))).IsFixed ∧
    ∃ enough, ∀ n, enough ≤ n → ∃ later,
      Session.add n "(x, x') => x" (.known 1) Session.identitySession = (.ok (), later) ∧
        later.results = ["(x, x') => x"] := by
  obtain ⟨modules, main, among, env, pg⟩ := parsedProgram_identity
  have legible : ∀ x ∈ shadowing.names, isName x := by decide
  have started : ParsedProgram modules (Engine.fresh identityStore).store [] := pg
  have evd : evaluate ⟨countingHost, none⟩ 9 shadowing main.env (.fresh identityStore) =
      (.ok shadowingValue, shadowingEngine) := by
    rw [env]
    rfl
  have obtained := started.evaluate among (.inr (parseEntry_display legible)) evd
  obtain ⟨aft, normalized⟩ := normalize_shadowing
  obtain ⟨parses, fixed, typed⟩ := printed_form_fixed obtained List.mem_cons_self normalized
  have shown : (Term.lam "x" (.lam "x'" (.var "x"))).display = "(x, x') => x" := by decide
  have unb : ∀ sts, Session.identitySession.settings.limit.exceeded sts = false := fun _ => rfl
  rw [shown] at parses typed
  exact ⟨_, _, aft, obtained, List.mem_cons_self, normalized, parses, fixed,
    typed Session.identitySession (.known 1) rfl unb⟩

end CallByNeed
