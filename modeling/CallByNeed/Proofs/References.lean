import CallByNeed.Proofs.Confinement
import CallByNeed.Proofs.Wiring

/-!
# What the names of a program say about its failures

A binding refers to those that the table of its module gives to the free names
of its term.  The bindings that can be reached by such references are a realm,
so that they decide how requests for a binding can fail: a name is unbound only
if a module that was reached reports it (`unbound_reported`), and a thunk needs
its own value only if references that were reached form a cycle
(`cyclic_only_on_cycle`).
-/

namespace CallByNeed

open Relation Source

/-- A binding, known by its thunk, uses another one. -/
def Modules.Refers (ms : Modules) (s : Store) (src tg : Address) : Prop :=
  ∃ lk ∈ ms, ∃ d ∈ lk.declarations, src = d.thunk ∧
    ∃ x ∈ d.term.freeNames, s.find x lk.env = some tg

/-- A module has a name for a binding of another one. -/
def Modules.Imports (ms : Modules) (s : Store) (lk ex : Module) : Prop :=
  ex ∈ ms ∧ ∃ x, ∃ d ∈ ex.declarations, s.find x lk.env = some d.thunk

/-- A name is reported as unbound for some binding of a module that can be
reached by imports. -/
def Modules.Reports (ms : Modules) (s : Store) (lk : Module) (x : Name) : Prop :=
  ∃ o ∈ ms, ReflTransGen (ms.Imports s) lk o ∧ ∃ bn xs, (bn, xs) ∈ o.unboundNames s ∧ x ∈ xs

section Reachable

variable {ms : Modules} {s : Store} {lk : Module} {a : Address}

theorem Wired.owned_of_find (wired : Wired ms s) (mem : lk ∈ ms)
    (found : s.find x lk.env = some a) : Owned ms a := by
  obtain ⟨own, known, d, dcd, same⟩ := wired.shared lk mem _ (Store.mem_table_of_find found)
  exact ⟨own, known, d, dcd, Option.some.inj same⟩

theorem Wired.owned_of_refers (wired : Wired ms s) {st0 : Address} (owned : Owned ms st0)
    (reachable : ReflTransGen (ms.Refers s) st0 a) : Owned ms a := by
  induction reachable with
  | refl => exact owned
  | tail _ refers _ =>
    obtain ⟨lk, mem, _, _, _, x, _, found⟩ := refers
    exact wired.owned_of_find mem found

/-- References lead along imports. -/
theorem Wired.imports_of_refers (wired : Wired ms s) (mem : lk ∈ ms)
    (dcd : d ∈ lk.declarations) (reachable : ReflTransGen (ms.Refers s) d.thunk a) {owner : Module}
    (known : owner ∈ ms) {o : Declaration} (listed : o ∈ owner.declarations) (same : a = o.thunk) :
    ReflTransGen (ms.Imports s) lk owner := by
  induction reachable generalizing owner o with
  | refl =>
    have own := wired.own lk mem d dcd
    exact .single ⟨known, d.name, o, listed, same ▸ own⟩
  | tail _ refers ih =>
    obtain ⟨mid, knownMiddle, between, listedMiddle, sameMiddle, x, _, found⟩ := refers
    have early := ih knownMiddle listedMiddle sameMiddle
    exact early.tail ⟨known, x, o, listed, same ▸ found⟩

/-- A free name that a module does not bind is reported for its binding. -/
theorem Wired.mem_unboundNames (wired : Wired ms s) (mem : lk ∈ ms)
    (dcd : d ∈ lk.declarations) (free : x ∈ d.term.freeNames)
    (lost : s.find x lk.env = none) : ∃ xs, (d.name, xs) ∈ lk.unboundNames s ∧ x ∈ xs := by
  have absent : x ∉ lk.names s := by
    intro bound
    obtain ⟨en, listed, named⟩ := List.mem_map.mp bound
    cases held : (s.table lk.table).lookup x with
    | none => grind
    | some pl =>
      obtain ⟨fr, bk, split, _⟩ := List.lookup_eq_some_iff.mp held
      obtain ⟨_, _, o, _, same⟩ := wired.shared lk mem (x, pl) (by simp [split])
      grind [Module.env, Store.find, Table.find]
  let missing := d.term.freeNames.filter fun x =>
    !(lk.names s).contains x
  have unbound : x ∈ missing := List.mem_filter.mpr ⟨free, by simpa using absent⟩
  have some : missing.isEmpty = false := by
    cases empty : missing with
    | nil => simp [empty] at unbound
    | cons _ _ => rfl
  refine ⟨Term.sortNames missing, List.mem_filterMap.mpr ⟨d, dcd, ?_⟩, ?_⟩
  · grind
  · exact List.mem_mergeSort.mpr unbound

end Reachable

/-- The bindings that can be reached from one of them by references, each with a
rank. -/
noncomputable def Modules.realm (ms : Modules) (s : Store) (st0 : Address)
    (rank : Address → ℚ) (ranked : Prop) (missing : Name → Prop) : Realm :=
  open scoped Classical in
  { level := fun a =>
      if ReflTransGen (ms.Refers s) st0 a then some (rank a) else none
    ranked
    missing
    counted := none }

section Program

variable {ms : Modules} {s : Store} {st0 : Address} {rank : Address → ℚ}
  {ranked : Prop} {missing : Name → Prop}

theorem Modules.level_realm (reachable : ReflTransGen (ms.Refers s) st0 a) :
    (ms.realm s st0 rank ranked missing).level a = some (rank a) := if_pos reachable

/-- The bindings of a program that can be reached from one of them are a realm,
if references lead to lower ranks and names that are lost may be missing. -/
theorem Program.rests (pg : Program ms s) (owned : Owned ms st0)
    (lower : ranked → ∀ {src tg}, ReflTransGen (ms.Refers s) st0 src → ms.Refers s src tg →
      rank tg < rank src)
    (lost : ∀ {lk d x}, lk ∈ ms → d ∈ lk.declarations →
      ReflTransGen (ms.Refers s) st0 d.thunk →
      x ∈ d.term.freeNames → s.find x lk.env = none → missing x) :
    Rests s (ms.realm s st0 rank ranked missing) s := by
  refine ⟨⟨rfl, ?_⟩, pg.linked.settled, pg.linked.writable⟩
  intro a lv given
  by_cases reachable : ReflTransGen (ms.Refers s) st0 a
  · rw [Modules.level_realm reachable] at given
    cases given
    obtain ⟨own, mem, d, dcd, rfl⟩ := pg.wired.owned_of_refers owned reachable
    have held := pg.linked_declared.2 own mem d dcd
    refine ⟨_, held, .code rfl (by simp [Thunk.suspended]) ⟨?_, ?_⟩⟩
    · intro x tg free found
      have refers : ms.Refers s d.thunk tg := ⟨own, mem, d, dcd, rfl, x, free, found⟩
      exact ⟨rank tg, Modules.level_realm (reachable.tail refers),
        fun isRanked => lower isRanked reachable refers⟩
    · intro x free absent
      exact lost mem dcd reachable free absent
  · have ots : (ms.realm s st0 rank ranked missing).level a = none := if_neg reachable
    simp_all

end Program

/-! ### A program with both faults -/

/-- A binding of the first module uses a name that is bound nowhere, and another
one needs its own value.  The second module has a binding that meets the first
fault, and one that meets none. -/
def mixedSources : Sources :=
  [⟨"base", "base", [], [⟨"I", .lam "x" (.var "x"), 1⟩, ⟨"Loop", .var "Loop", 2⟩,
      ⟨"Use", .lam "f" (.app (.var "f") (.var "nothing")), 3⟩]⟩,
    ⟨"main", "main", [⟨[⟨"I", "I"⟩, ⟨"Use", "Use"⟩], "base", 1⟩],
      [⟨"Main", .app (.var "I") (.var "I"), 2⟩, ⟨"Bad", .app (.var "Use") (.var "I"), 3⟩]⟩]

def mixedStore : Store :=
  ⟨#[.suspended (.lam "x" (.var "x")) (.root 0) (some "I"),
      .suspended (.var "Loop") (.root 0) (some "Loop"),
      .suspended (.lam "f" (.app (.var "f") (.var "nothing"))) (.root 0) (some "Use"),
      .suspended (.app (.var "I") (.var "I")) (.root 1) (some "Main"),
      .suspended (.app (.var "Use") (.var "I")) (.root 1) (some "Bad")],
    #[[("I", some 0), ("Loop", some 1), ("Use", some 2)],
      [("I", some 0), ("Use", some 2), ("Main", some 3), ("Bad", some 4)]], 0⟩

def mixedBase : Module :=
  ⟨"base", some "base", 0, [⟨"I", 0, .lam "x" (.var "x"), 1⟩, ⟨"Loop", 1, .var "Loop", 2⟩,
    ⟨"Use", 2, .lam "f" (.app (.var "f") (.var "nothing")), 3⟩]⟩

def mixedMain : Module :=
  ⟨"main", some "main", 1, [⟨"Main", 3, .app (.var "I") (.var "I"), 2⟩,
    ⟨"Bad", 4, .app (.var "Use") (.var "I"), 3⟩]⟩

theorem program_mixed : Program [mixedBase, mixedMain] mixedStore := by
  have ord : dependencyOrder mixedSources [] = .ok ["base", "main"] := by
    simp [dependencyOrder, visitAll, visitImports, mixedSources, importedIds]
    rfl
  exact .resolve .empty (resolve_of_order ord)

theorem force_bad : ∃ aft,
    force ⟨countingHost, none⟩ 20 (some 4) (Engine.fresh mixedStore) =
      (.error (.raised (.evaluation (.unbound "nothing") ["Bad", "nothing"])), aft) :=
  ⟨_, rfl⟩

/-! ### Unbound names -/

/-- The warning about unbound names is sound.  A request for a binding of a
program, or for the normal form or the number of its value, fails on an unbound
name only if that name is reported for a module that can be reached by imports;
none fails by applying what is no function. -/
theorem unbound_reported {ms : Modules} {s : Store} (pg : Program ms s)
    {lk : Module} (mem : lk ∈ ms) {d : Declaration}
    (dcd : d ∈ lk.declarations) {wanted : Wanted} {taken : Nat}
    {er : Raised}
    (fails : Fails s (fun cfg n => force cfg n (some d.thunk)) wanted taken er) :
    (∀ x tr, er = .evaluation (.unbound x) tr →
      ms.Reports s lk x) ∧
    ((∀ o ∈ ms, ReflTransGen (ms.Imports s) lk o →
        o.unboundNames s = []) →
      ∀ x tr, er ≠ .evaluation (.unbound x) tr) ∧
    ∀ tx tr, er ≠ .evaluation (.notAFunction tx) tr := by
  let rm := ms.realm s d.thunk (fun _ => 0) False (ms.Reports s lk)
  have owned : Owned ms d.thunk := ⟨lk, mem, d, dcd, rfl⟩
  have rests : Rests s rm s := by
    apply pg.rests owned
    · exact False.elim
    · intro own o x known listed reachable free lost
      obtain ⟨xs, reported, inside⟩ := pg.wired.mem_unboundNames known listed free lost
      exact ⟨own, known, pg.wired.imports_of_refers mem dcd reachable known listed rfl,
        o.name, xs, reported, inside⟩
  have answers : rm.Answers s fun cfg n => force cfg n (some d.thunk) :=
    answers_force rfl (Modules.level_realm .refl)
  have reported : ∀ x tr, er = .evaluation (.unbound x) tr →
      ms.Reports s lk x := by
    rintro x tr rfl
    rcases answers.faults rests rfl fails with faults | ⟨_, impossible, _⟩
    · cases faults with
      | unbound missing => exact missing
    · cases impossible
  refine ⟨reported, ?_, ?_⟩
  · intro silent x tr unbound
    obtain ⟨o, known, reachable, bn, xs, listed, _⟩ := reported x tr unbound
    simp_all
  · rintro tx tr rfl
    rcases answers.faults rests rfl fails with faults | ⟨_, impossible, _⟩
    · cases faults with
      | refused counting => cases counting
    · cases impossible

theorem unbound_reported_mixed :
    (∃ taken, Fails mixedStore (fun cfg n => force cfg n (some 4)) .value taken
      (.evaluation (.unbound "nothing") ["Bad", "nothing"])) ∧
    Modules.Reports [mixedBase, mixedMain] mixedStore mixedMain "nothing" := by
  obtain ⟨aft, failed⟩ := force_bad
  have fails : Fails mixedStore (fun cfg n => force cfg n (some 4)) .value _
      (.evaluation (.unbound "nothing") ["Bad", "nothing"]) := .value .start failed
  have mem : mixedMain ∈ [mixedBase, mixedMain] := by simp
  have dcd : ⟨"Bad", 4, .app (.var "Use") (.var "I"), 3⟩ ∈ mixedMain.declarations := by
    simp [mixedMain]
  exact ⟨⟨_, fails⟩, (unbound_reported program_mixed mem dcd fails).1 _ _ rfl⟩

/-! ### Cycles -/

/-- The number of bindings that can be reached from one by at least one
reference. -/
noncomputable def Modules.depth (ms : Modules) (s : Store) (a : Address) : Nat :=
  open scoped Classical in ((Finset.range s.size).filter (TransGen (ms.Refers s) a)).card

/-- Without cycles, references lead to bindings from which fewer can be
reached. -/
theorem Program.depth_lt (pg : Program ms s) {src tg : Address}
    (refers : ms.Refers s src tg) (acyclic : ¬ TransGen (ms.Refers s) tg tg) :
    ms.depth s tg < ms.depth s src := by
  classical
  have bound : tg < s.size := by
    obtain ⟨lk, mem, _, _, _, x, _, found⟩ := refers
    exact pg.linked.find_lt found
  apply Finset.card_lt_card
  rw [Finset.ssubset_iff_of_subset]
  · refine ⟨tg, ?_, ?_⟩
    · grind
    simp_all
  · intro a mem
    rw [Finset.mem_filter] at mem ⊢
    exact ⟨mem.1, .head refers mem.2⟩

/-- A realm without thunks. -/
def Realm.empty : Realm where
  level _ := none
  ranked := True
  missing _ := False
  counted := none

/-- A value cycle that is reported is a real one.  A request for a binding from
which no cycle of references can be reached, or for the normal form or the number
of its value, never finds a thunk that needs its own value.  A term without free
names fails only by the bound on its steps, whatever environment it is evaluated
in; its number can also be too large to be shown, which takes as many steps. -/
theorem cyclic_only_on_cycle {ms : Modules} {s : Store} (pg : Program ms s) :
    (∀ lk ∈ ms, ∀ d ∈ lk.declarations,
      (∀ o, ReflTransGen (ms.Refers s) d.thunk o →
        ¬ TransGen (ms.Refers s) o o) →
      ∀ wanted taken er,
        Fails s (fun cfg n => force cfg n (some d.thunk)) wanted taken er →
        ∀ lb tr, er ≠ .evaluation (.cyclic lb) tr) ∧
    ∀ (t : Term) (env : Env), t.freeNames = [] → ∀ wanted taken er,
      Fails s (fun cfg n => evaluate cfg n t env) wanted taken er →
      (∃ bound tr, er = .evaluation (.stepLimit bound) tr) ∨
        wanted = .number ∧ er = .unwritable ∧ Nat.pow 10 Number.mostDigits ≤ taken := by
  constructor
  · rintro lk mem d dcd acyclic wanted taken er fails lb tr rfl
    let rm := ms.realm s d.thunk (fun a => (ms.depth s a : ℚ)) True fun _ => True
    have owned : Owned ms d.thunk := ⟨lk, mem, d, dcd, rfl⟩
    have rests : Rests s rm s := by
      apply pg.rests owned
      · intro _ src tg reachable refers
        exact_mod_cast pg.depth_lt refers (acyclic tg (reachable.tail refers))
      simp
    have answers : rm.Answers s fun cfg n => force cfg n (some d.thunk) :=
      answers_force rfl (Modules.level_realm .refl)
    rcases answers.faults rests rfl fails with faults | ⟨_, impossible, _⟩
    · cases faults with
      | cyclic unranked => exact unranked trivial
    · cases impossible
  · intro t env isClosed wanted taken er fails
    have rests : Rests s Realm.empty s :=
      ⟨⟨rfl, by simp [Realm.empty]⟩, pg.linked.settled, pg.linked.writable⟩
    have answers := @answers_evaluate s Realm.empty t env rfl isClosed
    rcases answers.faults rests rfl fails with faults | tooLarge
    · cases faults with
      | limited => exact .inl ⟨_, _, rfl⟩
      | unbound missing => exact missing.elim
      | cyclic unranked => exact absurd trivial unranked
      | refused counting => cases counting
      | unwritable counting => cases counting
    · exact .inr tooLarge

/-- The term that applies itself to itself. -/
def selfApplication : Term :=
  .app (.lam "x" (.app (.var "x") (.var "x"))) (.lam "x" (.app (.var "x") (.var "x")))

theorem cyclic_only_on_cycle_mixed :
    (∃ taken er, Fails mixedStore (fun cfg n => force cfg n (some 3))
        .value taken er ∧ ∀ lb tr, er ≠ .evaluation (.cyclic lb) tr) ∧
    selfApplication.freeNames = [] ∧
    ∃ taken er, Fails mixedStore
        (fun cfg n => evaluate cfg n selfApplication (.root 0)) .value taken er ∧
      ∃ bound tr, er = .evaluation (.stepLimit bound) tr := by
  obtain ⟨cycles, closedTerms⟩ := cyclic_only_on_cycle program_mixed
  have dcd : ⟨"Main", 3, .app (.var "I") (.var "I"), 2⟩ ∈ mixedMain.declarations := by
    simp [mixedMain]
  have limited : ∃ aft, force ⟨countingHost, some 1⟩ 9 (some 3) (.fresh mixedStore) =
      (.error (.raised (.evaluation (.stepLimit 1) ["Main"])), aft) := ⟨_, rfl⟩
  obtain ⟨aft, limited⟩ := limited
  have fails : Fails mixedStore (fun cfg n => force cfg n (some 3)) .value _ _ :=
    .value .start limited
  have isClosed : selfApplication.freeNames = [] := by
    simp [selfApplication, Term.freeNames]
  have unending : ∃ aft, evaluate ⟨countingHost, some 3⟩ 9 selfApplication (.root 0)
      (.fresh mixedStore) = (.error (.raised (.evaluation (.stepLimit 3) [])), aft) := ⟨_, rfl⟩
  obtain ⟨last, unending⟩ := unending
  have stops : Fails mixedStore
      (fun cfg n => evaluate cfg n selfApplication (.root 0)) .value _ _ :=
    .value .start unending
  grind

-- the binding that refers to itself does need its own value
example : ∃ aft, force ⟨countingHost, none⟩ 9 (some 1) (.fresh mixedStore) =
    (.error (.raised (.evaluation (.cyclic "Loop") ["Loop"])), aft) :=
  ⟨_, rfl⟩

end CallByNeed
