import CallByNeed.Proofs.Delaying
import CallByNeed.Proofs.Pairing

/-!
# Sharing the thunks of arguments

The machine that gives every argument a thunk of its own is compared with the
machine of this library, which passes on the thunk of a variable and takes an
abstraction for its own value.  Every plain thunk has a counterpart in the shared
store, and several plain thunks can have the same one: a variable that was passed
on is a plain thunk that leads to an earlier one (`Thunk.Folds.passing`).

When the shared machine looks at a thunk, the plain one goes along such thunks
until it comes to the first of them.  It marks all on its way, and all of them keep
the value, so that a frame of the shared stack is a row of frames of the plain one.
Each move of the shared machine is one or more moves of the plain machine
(`Shares.move`), and it fails only where the other one fails (`Shares.raise`).
-/

variable {er : Raised} {prim : Name}

namespace CallByNeed

variable {host : Host}

/-- What a plain thunk holds, and its counterpart at an address of the shared store.
The pairing leads from the plain store to the shared one. -/
inductive Thunk.Folds (pr : Pairing) (plain : Store) (pl a : Address)
    (th o : Thunk) : Prop where
  | kept (forced : th.phase = .forced) (otherForced : o.phase = .forced)
      (forms : Form.Matches pr th.value.form o.value.form)
  /-- Both hold the same term.  No earlier plain thunk has this counterpart. -/
  | alike {t env otherEnv} (phase : th.phase = o.phase)
      (notForced : o.phase ≠ .forced) (ct : th.content = .code t env)
      (otherContent : o.content = .code t otherEnv)
      (envs : Env.Matches pr env otherEnv)
      (least : ∀ ely < pl, pr ely ≠ some a)
  /-- The plain thunk holds a variable, whose thunk was there before. -/
  | passing {x env ely} (notForced : th.phase ≠ .forced) (ct : th.content = .code (.var x) env)
      (found : plain.find x env = some ely)
      (paired : pr ely = some a) (bef : ely < pl)
  /-- The plain thunk holds an abstraction, which is its own value. -/
  | abstraction {p b env otherEnv} (unforced : th.phase = .unforced)
      (ct : th.content = .code (.lam p b) env)
      (otherForced : o.phase = .forced)
      (form : o.value.form = .closure p b otherEnv)
      (envs : Env.Matches pr env otherEnv)

/-- A plain store and a shared one of the same program. -/
structure Folds (pr : Pairing) (plain shared : Store) : Prop where
  tables : plain.tables = shared.tables
  rooted : ∀ {num en a}, en ∈ shared.table num → en.2 = some a →
    pr a = some a
  held : ∀ {pl a}, pr pl = some a → ∃ th o,
    plain.thunk? pl = some th ∧ shared.thunk? a = some o ∧
      Thunk.Folds pr plain pl a th o

section

variable {pr : Pairing} {plain aft : Store} {pl a : Address} {th o : Thunk} {v : Value}

/-- A thunk whose counterpart has no value holds a term, by which it can be named. -/
theorem Thunk.Folds.isWritable (folds : Thunk.Folds pr plain pl a th o)
    (notForced : o.phase ≠ .forced) : th.isWritable := by
  cases folds with
  | kept _ otherForced => exact absurd otherForced notForced
  | alike _ _ ct => simp [Thunk.isWritable, ct]
  | passing _ ct => simp [Thunk.isWritable, ct]
  | abstraction _ ct => simp [Thunk.isWritable, ct]

theorem Thunk.Folds.rebase (folds : Thunk.Folds pr plain pl a th o)
    (tbs : aft.tables = plain.tables) : Thunk.Folds pr aft pl a th o := by
  cases folds with
  | kept forced otherForced forms => exact .kept forced otherForced forms
  | alike phase notForced ct otherContent envs least =>
    exact .alike phase notForced ct otherContent envs least
  | passing notForced ct found paired bef =>
    exact .passing notForced ct ((Store.find_congr tbs _ _).trans found) paired bef
  | abstraction unforced ct otherForced form envs =>
    exact .abstraction unforced ct otherForced form envs

theorem Thunk.Folds.add (folds : Thunk.Folds pr plain pl a th o) {later : Address}
    (late : pl < later) (free : pr later = none) (tg : Address) :
    Thunk.Folds (pr.add later tg) plain pl a th o := by
  have grows := Pairing.extends_add free tg
  cases folds with
  | kept forced otherForced forms => exact .kept forced otherForced (forms.extend grows)
  | alike phase notForced ct otherContent envs least =>
    refine .alike phase notForced ct otherContent (envs.extend grows) ?_
    grind [Pairing.add_of_ne]
  | passing notForced ct found paired bef =>
    exact .passing notForced ct found (grows _ _ paired) bef
  | abstraction unforced ct otherForced form envs =>
    exact .abstraction unforced ct otherForced form (envs.extend grows)

namespace Folds

variable {shared : Store}

section

variable (folds : Folds pr plain shared)

include folds

theorem lt {pl a : Address} (paired : pr pl = some a) : pl < plain.size ∧ a < shared.size := by
  obtain ⟨th, o, there, also, _⟩ := folds.held paired
  exact ⟨Store.thunk?_lt there, Store.thunk?_lt also⟩

theorem free : pr plain.size = none := by
  cases paired : pr plain.size with
  | none => rfl
  | some a => exact absurd (folds.lt paired).1 (Nat.lt_irrefl _)

/-- A name stands for counterparts, or for nothing on both sides. -/
theorem find {o : Env} (envs : Env.Matches pr env o) (x : Name) :
    (plain.find x env = none ∧ shared.find x o = none) ∨
      ∃ pl a, plain.find x env = some pl ∧ shared.find x o = some a ∧ pr pl = some a := by
  induction envs with
  | root num =>
    rw [Store.find_congr folds.tables]
    cases found : shared.find x (.root num) with
    | none => exact .inl ⟨rfl, rfl⟩
    | some a =>
      exact .inr ⟨a, a, rfl, rfl, folds.rooted (Store.mem_table_of_find found) rfl⟩
  | @layer bound th pl env o pairs _ ih =>
    by_cases here : bound = x
    · obtain ⟨l, r, rfl, rfl, paired⟩ := pairs
      grind [Store.find]
    · simpa [Store.find, here] using ih

theorem found {o : Env} {a : Address} (envs : Env.Matches pr env o)
    (found : shared.find x o = some a) : ∃ pl, plain.find x env = some pl ∧ pr pl = some a := by
  rcases folds.find envs x with ⟨_, lost⟩ | ⟨pl, _, foundPlace, foundHere, paired⟩
  · simp [found] at lost
  · cases found.symm.trans foundHere
    exact ⟨pl, foundPlace, paired⟩

theorem change {aft later : Store} (tbs : aft.tables = plain.tables)
    (laterTables : later.tables = shared.tables)
    (ths : ∀ {pl a th o}, pr pl = some a →
      plain.thunk? pl = some th → shared.thunk? a = some o → Thunk.Folds pr plain pl a th o →
      ∃ next also, aft.thunk? pl = some next ∧ later.thunk? a = some also ∧
        Thunk.Folds pr plain pl a next also) : Folds pr aft later where
  tables := by rw [tbs, laterTables, folds.tables]
  rooted := by
    intro num en a mem
    have same : later.table num = shared.table num := by
      simp [Store.table, laterTables]
    rw [same] at mem
    exact folds.rooted mem
  held := by
    intro pl a paired
    obtain ⟨th, o, there, also, same⟩ := folds.held paired
    obtain ⟨next, next', heldNext, heldAlso, still⟩ := ths paired there also same
    exact ⟨next, next', heldNext, heldAlso, still.rebase tbs⟩

/-- The plain store gets a new thunk, with a counterpart. -/
theorem allocate {th o : Thunk} {later : Store} {a : Address} (tbs : later.tables = shared.tables)
    (keeps : ∀ {pl held}, shared.thunk? pl = some held → later.thunk? pl = some held)
    (there : later.thunk? a = some o)
    (new : Thunk.Folds (pr.add plain.size a) plain plain.size a th o) :
    Folds (pr.add plain.size a) (plain.alloc th).2 later where
  tables := by rw [Store.tables_alloc, tbs, folds.tables]
  rooted := by
    intro num en tg mem given
    have same : later.table num = shared.table num := by simp [Store.table, tbs]
    rw [same] at mem
    exact Pairing.extends_add folds.free a _ _ (folds.rooted mem given)
  held := by
    intro pl tg paired
    by_cases added : pl = plain.size
    · subst added
      rw [Pairing.add_self] at paired
      cases paired
      exact ⟨th, o, by simp, there, new.rebase rfl⟩
    · rw [Pairing.add_of_ne a added] at paired
      obtain ⟨former, counterpart, heldFormer, heldAlso, same⟩ := folds.held paired
      exact ⟨former, counterpart, Store.thunk?_alloc_of_some heldFormer _, keeps heldAlso,
        (same.add (folds.lt paired).1 folds.free a).rebase rfl⟩

/-- A plain thunk that only passes on is marked. -/
theorem mark {pl a ely : Address} {th : Thunk} (given : pr pl = some a)
    (there : plain.thunk? pl = some th) (ct : th.content = .code (.var x) env)
    (found : plain.find x env = some ely) (paired : pr ely = some a) (bef : ely < pl) :
    Folds pr (plain.update pl Thunk.begin) shared := by
  refine folds.change rfl rfl ?_
  intro o tg held also pairedOther heldOther heldAlso same
  by_cases here : pl = o
  · subst here
    cases there.symm.trans heldOther
    cases given.symm.trans pairedOther
    exact ⟨th.begin, also, by simp [there], heldAlso, .passing (by simp) ct found paired bef⟩
  simp_all

theorem keep {pl a : Address} {o : Thunk} {r : Value} (given : pr pl = some a)
    (also : shared.thunk? a = some o) (forced : o.phase = .forced)
    (forms : Form.Matches pr r.form o.value.form) :
    Folds pr (plain.update pl (·.memoize r)) shared := by
  refine folds.change rfl rfl ?_
  intro tg counterpart held th paired heldTarget heldThunk same
  by_cases here : pl = tg
  · subst here
    cases given.symm.trans paired
    cases also.symm.trans heldThunk
    exact ⟨held.memoize r, o, by simp [heldTarget], also, .kept rfl forced forms⟩
  simp_all

end

end Folds

theorem Thunk.unforced_of (notForced : th.phase ≠ .forced) (notForcing : th.phase ≠ .forcing) :
    th.phase = .unforced := by
  cases phase : th.phase with
  | unforced => rfl
  | forcing => exact absurd phase notForcing
  | forced => exact absurd phase notForced

theorem Store.phase?_update_of_ne {s : Store} {changed o : Address} (differs : changed ≠ o)
    (change : Thunk → Thunk) : (s.update changed change).phase? o = s.phase? o := by
  simp [Store.phase?, differs]

section Lookup

variable {shared : Store}

/-- The plain machine enters a thunk that passes on. -/
theorem Folds.pass {plain : Store} (folds : Folds pr plain shared) {pl ely : Address} {th : Thunk}
    {passed : Name} {inn : Env} (paired : pr pl = some a) (held : plain.thunk? pl = some th)
    (notForced : th.phase ≠ .forced) (idle : plain.phase? pl ≠ some .forcing)
    (ct : th.content = .code (.var passed) inn) (next : plain.find passed inn = some ely) (pairedNext : pr ely = some a) (bef : ely < pl)
    {x : Name} {env : Env} (found : plain.find x env = some pl) (v : Value) (k : List Frame) :
    MovesWith Store.suspend host 1 ⟨some (.var x, env), v, k, plain⟩
        ⟨some (.var passed, inn), v, .update pl :: k, plain.update pl Thunk.begin⟩ ∧
      Folds pr (plain.update pl Thunk.begin) shared ∧
      (plain.update pl Thunk.begin).find passed inn = some ely := by
  have unforced : th.phase = .unforced := Thunk.unforced_of notForced fun forcing =>
    idle (by simp [Store.phase?, held, forcing])
  have enter : Move host ⟨some (.var x, env), v, k, plain⟩ _ := .enter found held unforced
  have code : th.code? = some (.var passed, inn) := by simp [Thunk.code?, ct]
  rw [code] at enter
  exact ⟨.single (.move (by simp) enter), folds.mark paired held ct next pairedNext bef,
    (Store.find_congr (plain.tables_update pl Thunk.begin) _ _).trans next⟩

theorem idle_begin {plain : Store} {pl ely : Address}
    (idle : ∀ fst ≤ pl, pr fst = some a → plain.phase? fst ≠ some .forcing) (bef : ely < pl) :
    ∀ fst ≤ ely, pr fst = some a → (plain.update pl Thunk.begin).phase? fst ≠ some .forcing := by
  grind [Store.phase?_update_of_ne]

section

variable (there : shared.thunk? a = some o)

include there

variable {x : Name} {env : Env}

/-- The shared thunk has its value: the plain machine finds it too. -/
theorem Folds.recall (forced : o.phase = .forced) (pl : Address) (folds : Folds pr plain shared)
    (paired : pr pl = some a)
    (idle : ∀ ely ≤ pl, pr ely = some a → plain.phase? ely ≠ some .forcing)
    (found : plain.find x env = some pl) (v : Value) (k : List Frame) :
    ∃ cnt r aft,
      MovesWith Store.suspend host (cnt + 1) ⟨some (.var x, env), v, k, plain⟩
        ⟨none, r, k, aft⟩ ∧
      Form.Matches pr r.form o.value.form ∧ Folds pr aft shared ∧
      ∀ marked, aft.phase? marked = some .forcing → plain.phase? marked = some .forcing := by
  induction pl using Nat.strong_induction_on generalizing plain x env k with
  | _ pl ih =>
    obtain ⟨th, also, held, heldAlso, same⟩ := folds.held paired
    cases there.symm.trans heldAlso
    cases same with
    | kept forcedHere _ forms =>
      have move : Move host ⟨some (.var x, env), v, k, plain⟩ _ := .reuse found held forcedHere
      exact ⟨0, _, plain, .single (.move (by simp) move), forms, folds, fun _ => id⟩
    | alike phase notForced => exact absurd forced notForced
    | @abstraction p b bound _ unforced ct _ form envs =>
      have enter : Move host ⟨some (.var x, env), v, k, plain⟩ _ := .enter found held unforced
      have code : th.code? = some (.lam p b, bound) := by
        simp [Thunk.code?, ct]
      rw [code] at enter
      have close : Move host ⟨some (.lam p b, bound), v, .update pl :: k,
          plain.update pl Thunk.begin⟩ _ := .close
      have memoize : Move host ⟨none,
          ((plain.update pl Thunk.begin).build (.closure p b bound)).1, .update pl :: k,
          ((plain.update pl Thunk.begin).build (.closure p b bound)).2⟩ _ := .memoize
      have forms : Form.Matches pr (.closure p b bound) o.value.form := by
        rw [form]
        exact .closure envs
      refine ⟨2, _, _, .step (.move (by simp) enter) (.step (.move (by simp) close)
        (.single (.move (by simp) memoize))), forms, ?_, ?_⟩
      · refine folds.change rfl rfl ?_
        intro tg counterpart former also pairedTarget heldFormer heldAlso same
        by_cases here : pl = tg
        · subst here
          cases paired.symm.trans pairedTarget
          cases there.symm.trans heldAlso
          exact ⟨former.begin.memoize
              ((plain.update pl Thunk.begin).build (.closure p b bound)).1,
            o, by simp [heldFormer], there, .kept rfl forced forms⟩
        · exact ⟨former, also, by simp [here, heldFormer], heldAlso, same⟩
      · intro marked forcing
        by_cases here : pl = marked
        · subst here
          simp [Store.phase?, held] at forcing
        · simpa [Store.phase?, here] using forcing
    | @passing passed bound ely notForced ct next pairedNext bef =>
      obtain ⟨enter, marked, nextStill⟩ := folds.pass paired held notForced
        (idle pl (Nat.le_refl pl) paired) ct next pairedNext bef found v k
      obtain ⟨cnt, r, aft, moves, forms, foldsAfter, marks⟩ :=
        ih ely bef marked pairedNext (idle_begin idle bef) nextStill (.update pl :: k)
      have memoize : Move host ⟨none, r, .update pl :: k, aft⟩ _ := .memoize
      refine ⟨1 + (cnt + 1), r, _,
        (enter.trans moves).trans (.single (.move (by simp) memoize)), forms,
        foldsAfter.keep paired there forced forms, ?_⟩
      intro marked forcing
      by_cases here : pl = marked
      · subst here
        simp [Store.phase?, Function.comp_def] at forcing
      · rw [Store.phase?_update_of_ne here] at forcing
        have earlierMark := marks marked forcing
        rwa [Store.phase?_update_of_ne here] at earlierMark

/-- The evaluation of the shared thunk begins: the plain machine marks the thunks on
its way to the term. -/
theorem Folds.awaken (unforced : o.phase = .unforced) (pl : Address) (folds : Folds pr plain shared)
    (paired : pr pl = some a)
    (idle : ∀ ely ≤ pl, pr ely = some a → plain.phase? ely ≠ some .forcing)
    (found : plain.find x env = some pl) (v : Value) (k : List Frame) :
    ∃ cnt t inn bound, ∃ row : List Address, ∃ aft,
      MovesWith Store.suspend host (cnt + 1) ⟨some (.var x, env), v, k, plain⟩
        ⟨some (t, inn), v, row.map .update ++ k, aft⟩ ∧
      o.code? = some (t, bound) ∧ Env.Matches pr inn bound ∧ row ≠ [] ∧
      (∀ en ∈ row, pr en = some a) ∧ Folds pr aft (shared.update a Thunk.begin) ∧
      ∀ marked, aft.phase? marked = some .forcing →
        plain.phase? marked = some .forcing ∨ marked ∈ row := by
  induction pl using Nat.strong_induction_on generalizing plain x env k with
  | _ pl ih =>
    obtain ⟨th, also, held, heldAlso, same⟩ := folds.held paired
    cases there.symm.trans heldAlso
    cases same with
    | kept _ otherForced => simp [unforced] at otherForced
    | abstraction _ _ otherForced => simp [unforced] at otherForced
    | @alike t inn bound phase notForced contentHere otherContent envs least =>
      have enter : Move host ⟨some (.var x, env), v, k, plain⟩ _ :=
        .enter found held (phase.trans unforced)
      have code : th.code? = some (t, inn) := by
        simp [Thunk.code?, contentHere]
      rw [code] at enter
      refine ⟨0, t, inn, bound, [pl], _, .single (.move (by simp) enter),
        by simp [Thunk.code?, otherContent], envs, by simp, by simpa using paired, ?_, ?_⟩
      · refine folds.change rfl rfl ?_
        intro tg counterpart former latter pairedTarget heldFormer heldLatter same
        by_cases here : pl = tg
        · subst here
          cases paired.symm.trans pairedTarget
          cases there.symm.trans heldLatter
          cases held.symm.trans heldFormer
          exact ⟨th.begin, o.begin, by simp [held], by simp [there],
            .alike rfl (by simp) contentHere otherContent envs least⟩
        · by_cases also : a = counterpart
          · subst also
            cases there.symm.trans heldLatter
            refine ⟨former, o.begin, by simp [here, heldFormer], by simp [there], ?_⟩
            cases same with
            | kept _ otherForced => simp [unforced] at otherForced
            | abstraction _ _ otherForced => simp [unforced] at otherForced
            | passing notForced ct found paired bef =>
              exact .passing notForced ct found paired bef
            | alike _ _ _ _ _ leastTarget =>
              -- two thunks cannot both be the first one
              grind
          simp_all
      grind [Store.phase?_update_of_ne]
    | @passing passed inn ely notForced ct next pairedNext bef =>
      obtain ⟨enter, marked, nextStill⟩ := folds.pass paired held notForced
        (idle pl (Nat.le_refl pl) paired) ct next pairedNext bef found v k
      obtain ⟨cnt, t, innermost, bound, row, aft, moves, code, envs, _, pairedRow,
        foldsAfter, marks⟩ :=
        ih ely bef marked pairedNext (idle_begin idle bef) nextStill (.update pl :: k)
      refine ⟨1 + cnt, t, innermost, bound, row ++ [pl], aft, ?_, code, envs, by simp,
        ?_, foldsAfter, ?_⟩
      · simpa [Nat.add_assoc] using enter.trans moves
      · grind
      grind [Store.phase?_update_of_ne]

/-- The shared thunk is being evaluated: the plain machine comes to one that is, too. -/
theorem Folds.entangle (forcing : o.phase = .forcing) (pl : Address) (folds : Folds pr plain shared)
    (paired : pr pl = some a) (found : plain.find x env = some pl) (v : Value) (k : List Frame) :
    ∃ cnt last lb, MovesWith Store.suspend host cnt ⟨some (.var x, env), v, k, plain⟩ last ∧
      Raise host last (.evaluation (.cyclic lb) []) ∧ Folds pr last.store shared ∧
      ∀ en ∈ updates last.stack, en ∈ updates k ∨ pr en = some a := by
  induction pl using Nat.strong_induction_on generalizing plain x env k with
  | _ pl ih =>
    obtain ⟨th, also, held, heldAlso, same⟩ := folds.held paired
    cases there.symm.trans heldAlso
    by_cases forcingHere : th.phase = .forcing
    · have raise : Raise host ⟨some (.var x, env), v, k, plain⟩ th.cycle :=
        .cyclic found held forcingHere
      have wr := same.isWritable (by simp [forcing])
      rw [Thunk.cycle, if_pos wr] at raise
      exact ⟨0, _, th.label, .refl _, raise, folds, fun en mem => .inl mem⟩
    · cases same with
      | kept _ otherForced => simp [forcing] at otherForced
      | abstraction _ _ otherForced => simp [forcing] at otherForced
      | alike phase => exact absurd (phase.trans forcing) forcingHere
      | @passing passed inn ely notForced ct next pairedNext bef =>
        obtain ⟨enter, marked, nextStill⟩ := folds.pass paired held notForced
          (by simp [Store.phase?, held, forcingHere]) ct next pairedNext bef found v k
        obtain ⟨cnt, last, lb, moves, raise, foldsAfter, waits⟩ :=
          ih ely bef marked pairedNext nextStill (.update pl :: k)
        refine ⟨1 + cnt, last, lb, enter.trans moves, raise, foldsAfter, ?_⟩
        grind [updates_update]

end

end Lookup

/-- A primitive that is given a thunk goes on as a name of that thunk does. -/
theorem MovesWith.supplied (form : v.form = .primitive prim) {k : Nat}
    {last : Configuration} (moves : MovesWith Store.suspend host (k + 1)
      ⟨some (.var "", .layer "" (some pl) (.root 0)), v, .call prim :: stk, plain⟩
      last) :
    MovesWith Store.suspend host (k + 1) ⟨none, v, .argument (some pl) :: stk, plain⟩
      last := by
  cases moves with
  | step fst rest =>
    cases fst with
    | move _ move =>
      cases move with
      | reuse found held forced =>
        cases Option.some.inj found
        exact .step (.move (by simp) (.supply form held forced)) rest
      | enter found held unforced =>
        cases Option.some.inj found
        exact .step (.move (by simp) (.demand form held unforced)) rest

theorem Raise.supplied (form : v.form = .primitive prim) {k : List Frame}
    (raise : Raise host
      ⟨some (.var "", .layer "" (some pl) (.root 0)), v, .call prim :: k, plain⟩
      er) : Raise host ⟨none, v, .argument (some pl) :: k, plain⟩ er := by
  cases raise with
  | unbound lost => cases lost
  | dangling found empty =>
    cases Option.some.inj found
    exact .unsupplied form empty
  | cyclic found held forcing =>
    cases Option.some.inj found
    exact .cyclicArgument form held forcing

end

/-! ### Configurations -/

/-- The stacks of both machines.  A frame of the shared stack that waits for a value
is a row of such frames of the plain stack. -/
inductive Frames (pr : Pairing) : List Frame → List Frame → Prop where
  | nil : Frames pr [] []
  | argument {th o plain shared} (pairs : pr.Pairs th o) (rest : Frames pr plain shared) :
      Frames pr (.argument th :: plain) (.argument o :: shared)
  | call (prim : Name) {plain shared} (rest : Frames pr plain shared) :
      Frames pr (.call prim :: plain) (.call prim :: shared)
  | update {row : List Address} {a plain shared} (nonempty : row ≠ [])
      (paired : ∀ en ∈ row, pr en = some a)
      (rest : Frames pr plain shared) :
      Frames pr (row.map .update ++ plain) (.update a :: shared)

/-- Both machines have the same term in focus, or return the same value. -/
inductive Controls (pr : Pairing) : Option (Term × Env) → Value → Option (Term × Env) →
    Value → Prop where
  | term {t env o v r} (envs : Env.Matches pr env o) :
      Controls pr (some (t, env)) v (some (t, o)) r
  | value {v r} (forms : Form.Matches pr v.form r.form) : Controls pr none v none r

/-- A configuration of the plain machine and one of the shared machine. -/
structure Shares (pr : Pairing) (plain shared : Configuration) : Prop where
  folds : Folds pr plain.store shared.store
  frames : Frames pr plain.stack shared.stack
  controls : Controls pr plain.focus plain.value shared.focus shared.value
  marked : shared.Marked
  begun : ∀ pl, plain.store.phase? pl = some .forcing → .update pl ∈ plain.stack

variable {pr : Pairing} {plain s aft : Store} {pl a : Address} {th o : Thunk} {v r : Value}
  {focus : Option (Term × Env)} {stk k : List Frame} {shared : Configuration} {x : Name}
  {env : Env}

theorem Frames.extend {more : Pairing} {plain shared : List Frame} (fs : Frames pr plain shared)
    (grows : pr.Extends more) : Frames more plain shared := by
  induction fs with
  | nil => exact .nil
  | argument pairs _ ih => exact .argument (pairs.extend grows) ih
  | call prim _ ih => exact .call prim ih
  | update nonempty paired _ ih =>
    exact .update nonempty (fun en mem => grows _ _ (paired en mem)) ih

/-- A plain thunk that is waited for has a counterpart that is waited for. -/
theorem Frames.mem {plain shared : List Frame} (fs : Frames pr plain shared)
    (mem : .update pl ∈ plain) : ∃ a, pr pl = some a ∧ .update a ∈ shared := by
  induction fs with
  | nil => cases mem
  | argument _ _ ih => simp_all
  | call _ _ ih => simp_all
  | update _ paired _ ih => grind

theorem Shares.forcing {plain : Configuration} (shares : Shares pr plain shared)
    (paired : pr pl = some a) (forcing : plain.store.phase? pl = some .forcing) :
    shared.store.phase? a = some .forcing := by
  obtain ⟨o, pairedOther, waits⟩ := shares.frames.mem (shares.begun pl forcing)
  cases paired.symm.trans pairedOther
  exact shares.marked.forcing_iff.mpr (mem_updates.mpr waits)

/-- No thunk with a counterpart that is not being evaluated is being evaluated. -/
theorem Shares.idle {plain : Configuration} (shares : Shares pr plain shared)
    (there : shared.store.thunk? a = some o) (calm : o.phase ≠ .forcing) (pl : Address) :
    ∀ ely ≤ pl, pr ely = some a → plain.store.phase? ely ≠ some .forcing := by
  intro ely _ paired forcing
  have forcingAlso := shares.forcing paired forcing
  simp [Store.phase?, there, calm] at forcingAlso

/-- All thunks of a row keep a value. -/
def Store.keepAll (s : Store) (row : List Address) (v : Value) : Store :=
  row.foldl (fun s en => s.update en (·.memoize v)) s

theorem Store.tables_keepAll (s : Store) (row : List Address) (v : Value) :
    (s.keepAll row v).tables = s.tables := by
  induction row generalizing s with
  | nil => rfl
  | cons en row ih => exact ih (s.update en (·.memoize v))

theorem Store.thunk?_keepAll (s : Store) (row : List Address) (v : Value) (pl : Address) :
    (s.keepAll row v).thunk? pl =
      if pl ∈ row then (s.thunk? pl).map (·.memoize v) else s.thunk? pl := by
  induction row generalizing s with
  | nil => simp [keepAll]
  | cons en row ih =>
    have unfolded : s.keepAll (en :: row) v = (s.update en (·.memoize v)).keepAll row v := rfl
    rw [unfolded, ih]
    by_cases here : en = pl
    · subst here
      have twice : ((·.memoize v) ∘ (·.memoize v) : Thunk → Thunk) = (·.memoize v) := rfl
      simp_all
    · have o : pl ≠ en := fun same => here same.symm
      simp [here, o]

theorem moves_row (host : Host) (dl : Delaying) (v : Value) (row : List Address) (k : List Frame)
    (s : Store) :
    MovesWith dl host row.length ⟨none, v, row.map .update ++ k, s⟩
      ⟨none, v, k, s.keepAll row v⟩ := by
  induction row generalizing s with
  | nil => exact .refl _
  | cons en row ih => exact .step (.move (by simp) .memoize) (ih _)

/-- The evaluation of a shared thunk ends: all thunks of the row keep the value. -/
theorem Folds.complete {shared : Store} (folds : Folds pr plain shared)
    {r : Value} (there : shared.thunk? a = some o) (forcing : o.phase = .forcing)
    (paired : ∀ en ∈ row, pr en = some a)
    (all : ∀ pl, pr pl = some a → plain.phase? pl = some .forcing → pl ∈ row)
    (forms : Form.Matches pr v.form r.form) :
    Folds pr (plain.keepAll row v) (shared.update a (·.memoize r)) := by
  refine folds.change (plain.tables_keepAll row v) rfl ?_
  intro pl tg th counterpart given held also same
  by_cases inRow : pl ∈ row
  · cases (paired pl inRow).symm.trans given
    cases there.symm.trans also
    exact ⟨th.memoize v, o.memoize r, by simp [Store.thunk?_keepAll, inRow, held],
      by simp [there], .kept rfl rfl forms⟩
  · have heldStill : (plain.keepAll row v).thunk? pl = some th := by
      rw [Store.thunk?_keepAll, if_neg inRow, held]
    by_cases here : a = tg
    · subst here
      cases there.symm.trans also
      refine ⟨th, o.memoize r, heldStill, by simp [there], ?_⟩
      cases same with
      | kept _ otherForced => simp [forcing] at otherForced
      | abstraction _ _ otherForced => simp [forcing] at otherForced
      | passing notForced ct found paired bef =>
        exact .passing notForced ct found paired bef
      | alike phase => grind [Store.phase?]
    simp_all

theorem Folds.delay {shared : Store} (folds : Folds pr plain shared) {env o : Env}
    (envs : Env.Matches pr env o) (arg : Term) :
    ∃ more : Pairing, pr.Extends more ∧
      Folds more (plain.suspend arg env).2 (shared.delay arg o).2 ∧
      more (plain.suspend arg env).1 = some (shared.delay arg o).1 := by
  have extend : ∀ a, pr.Extends (pr.add plain.size a) := fun a => Pairing.extends_add folds.free a
  -- a new thunk of the shared store is the counterpart of no plain one
  have unused : ∀ ely < plain.size, ∀ a, a = shared.size → pr.add plain.size a ely ≠ some a := by
    rintro ely lt a rfl paired
    rw [Pairing.add_of_ne _ (Nat.ne_of_lt lt)] at paired
    exact Nat.lt_irrefl _ (folds.lt paired).2
  rcases shared.delay_cases arg o with ⟨x, a, rfl, found, delayed⟩ |
    ⟨lost, notLam, delayed⟩ | ⟨p, b, rfl, delayed⟩
  · obtain ⟨pl, foundPlace, paired⟩ := folds.found envs found
    rw [delayed]
    obtain ⟨_, counterpart, _, there, _⟩ := folds.held paired
    refine ⟨pr.add plain.size a, extend a, folds.allocate rfl id there ?_, by simp [Store.suspend]⟩
    exact .passing (by simp [Thunk.suspended]) rfl foundPlace (extend a _ _ paired)
      (folds.lt paired).1
  · rw [delayed]
    have there : (shared.alloc (.suspended arg o none)).2.thunk? shared.size =
        some (.suspended arg o none) := by simp
    refine ⟨pr.add plain.size shared.size, extend _,
      folds.allocate rfl (fun held => Store.thunk?_alloc_of_some held _) there ?_,
      by simp [Store.suspend]⟩
    exact .alike rfl (by simp [Thunk.suspended]) rfl rfl (envs.extend (extend _))
      (fun ely lt => unused ely lt _ rfl)
  · rw [delayed]
    have there : ((shared.build (.closure p b o)).2.alloc
        (.evaluated (shared.build (.closure p b o)).1 none)).2.thunk?
          shared.size = some (.evaluated (shared.build (.closure p b o)).1 none) := by simp
    refine ⟨pr.add plain.size shared.size, extend _,
      folds.allocate rfl (fun held => Store.thunk?_alloc_of_some (by simpa using held) _)
        there ?_, by simp [Store.suspend]⟩
    exact .abstraction rfl rfl rfl rfl (envs.extend (extend _))

/-- A value that the shared machine returns to an argument is returned to its counterpart. -/
theorem Shares.returns {arg : Option Address}
    (shares : Shares pr ⟨focus, v, stk, plain⟩ ⟨none, r, .argument arg :: k, s⟩) :
    ∃ given rest form, focus = none ∧ stk = .argument given :: rest ∧ v.form = form ∧
      pr.Pairs given arg ∧ Frames pr rest k ∧ Form.Matches pr form r.form := by
  obtain ⟨_, fs, controls, _, _⟩ := shares
  cases controls with
  | value forms =>
    cases fs with
    | argument pairs rest => exact ⟨_, _, _, rfl, rfl, rfl, pairs, rest, forms⟩

/-- The argument of a primitive can be named. -/
theorem Shares.names
    (shares : Shares pr ⟨none, v, .argument (some pl) :: stk, plain⟩
      ⟨none, r, .argument (some a) :: k, s⟩)
    (paired : pr pl = some a) (fs : Frames pr stk k) (prim : Name) :
    Shares pr ⟨some (.var "", .layer "" (some pl) (.root 0)), v, .call prim :: stk, plain⟩
      ⟨some (.var "", .layer "" (some a) (.root 0)), r, .call prim :: k, s⟩ where
  folds := shares.folds
  frames := .call prim fs
  controls := .term (.layer ⟨pl, a, rfl, rfl, paired⟩ (.root 0))
  marked := shares.marked
  begun := fun en forcing => by simpa using shares.begun en forcing

/-- The shared machine looks a name up, and so does the plain machine. -/
theorem Shares.look {next : Configuration}
    (shares : Shares pr ⟨focus, v, stk, plain⟩ ⟨some (.var x, env), r, k, s⟩)
    (move : Move host ⟨some (.var x, env), r, k, s⟩ next) :
    ∃ k aft, MovesWith Store.suspend host (k + 1) ⟨focus, v, stk, plain⟩ aft ∧
      Shares pr aft next := by
  have markedNext := shares.marked.move move
  obtain ⟨folds, fs, controls, _, begun⟩ := id shares
  cases controls with
  | term envs =>
    cases move with
    | reuse found held forced =>
      obtain ⟨pl, foundPlace, paired⟩ := folds.found envs found
      obtain ⟨k, r, aft, moves, forms, foldsAfter, marks⟩ :=
        folds.recall held forced pl paired (shares.idle held (by simp [forced]) pl) foundPlace v stk
      exact ⟨k, _, moves, foldsAfter, fs, .value forms, markedNext,
        fun en forcing => begun en (marks en forcing)⟩
    | enter found held unforced =>
      obtain ⟨pl, foundPlace, paired⟩ := folds.found envs found
      obtain ⟨k, t, inn, bound, row, aft, moves, code, envsInner, nonempty,
        pairedRow, foldsAfter, marks⟩ :=
        folds.awaken held unforced pl paired
          (shares.idle held (by simp [unforced]) pl) foundPlace v stk
      refine ⟨k, _, moves, foldsAfter, .update nonempty pairedRow fs, ?_, markedNext,
        fun en forcing => ?_⟩
      · rw [code]
        exact .term envsInner
      grind

/-- A move of the shared machine is one or more moves of the plain machine. -/
theorem Shares.move (uniform : host.Uniform) {plain next : Configuration}
    (shares : Shares pr plain shared) (move : Move host shared next) :
    ∃ k more aft, MovesWith Store.suspend host (k + 1) plain aft ∧
      pr.Extends more ∧ Shares more aft next := by
  have markedNext := shares.marked.move move
  obtain ⟨focus, v, stk, plain⟩ := plain
  obtain ⟨folds, fs, controls, _, begun⟩ := id shares
  have same : pr.Extends pr := fun _ _ => id
  cases move with
  | reuse found held forced =>
    obtain ⟨k, aft, moves, next⟩ := shares.look (.reuse found held forced)
    exact ⟨k, pr, aft, moves, same, next⟩
  | enter found held unforced =>
    obtain ⟨k, aft, moves, next⟩ := shares.look (.enter found held unforced)
    exact ⟨k, pr, aft, moves, same, next⟩
  | @close p b env _ _ s =>
    cases controls with
    | @term _ inn _ _ _ envs =>
      exact ⟨0, pr, _, .single (.move (by simp) .close), same,
        folds.change rfl rfl fun _ there also same => ⟨_, _, there, also, same⟩, fs,
        .value (.closure envs), markedNext, begun⟩
  | @postpone f arg env _ _ s =>
    cases controls with
    | @term _ inn _ _ _ envs =>
      obtain ⟨more, grows, foldsAfter, paired⟩ := folds.delay envs arg
      refine ⟨0, more, _, .single .postpone, grows, foldsAfter,
        .argument ⟨_, _, rfl, rfl, paired⟩ (fs.extend grows), .term (envs.extend grows),
        markedNext, fun en forcing => List.mem_cons_of_mem _ (begun en ?_)⟩
      by_cases new : en = plain.size
      · subst new
        simp [Store.phase?, Store.suspend, Thunk.suspended] at forcing
      · simpa [Store.phase?, Store.suspend, new] using forcing
  | @memoize _ a stk s =>
    cases controls with
    | value forms =>
      cases fs with
      | @update row _ lower _ nonempty paired rest =>
        obtain ⟨fst, os, rfl⟩ := List.exists_cons_of_ne_nil nonempty
        have forcing : s.phase? a = some .forcing := shares.marked.forcing_iff.mpr (by simp)
        obtain ⟨th, held, phase⟩ := Option.map_eq_some_iff.mp forcing
        have once : .update a ∉ stk := by
          intro again
          have counted := shares.marked a
          simp only [updates_update, List.count_cons_self, forcing, if_true] at counted
          grind [List.count_pos_iff, mem_updates]
        refine ⟨os.length, pr, _, moves_row host _ v (fst :: os) lower plain, same, ?_, rest,
          .value forms, markedNext, fun en forcingEntry => ?_⟩
        · refine folds.complete held phase paired (fun pl given forcingPlace => ?_) forms
          rcases List.mem_append.mp (begun pl forcingPlace) with inRow | inLower
          · simp_all
          · obtain ⟨o, pairedOther, waits⟩ := rest.mem inLower
            simp_all
        · have forcingBefore : plain.phase? en = some .forcing ∧ en ∉ fst :: os := by
            by_cases inRow : en ∈ fst :: os
            · simp_all [Store.phase?, Store.thunk?_keepAll]
            grind [Store.phase?, Store.thunk?_keepAll]
          rcases List.mem_append.mp (begun en forcingBefore.1) with inRow | inLower
          · simp_all
          · exact inLower
  | bind closure =>
    obtain ⟨_, _, _, rfl, rfl, form, pairs, rest, forms⟩ := shares.returns
    rw [closure] at forms
    cases forms with
    | closure envs =>
      exact ⟨0, pr, _, .single (.move (by simp) (.bind form)), same, folds, rest,
        .term (.layer pairs envs), markedNext, fun en forcing => by simpa using begun en forcing⟩
  | extend neutral =>
    obtain ⟨_, _, _, rfl, rfl, form, pairs, rest, forms⟩ := shares.returns
    rw [neutral] at forms
    cases forms with
    | neutral pairsAll =>
      refine ⟨0, pr, _, .single (.move (by simp) (.extend form)), same,
        folds.change rfl rfl fun _ there also same => ⟨_, _, there, also, same⟩, rest,
        .value (.neutral ?_), markedNext, fun en forcing => by simpa using begun en forcing⟩
      exact List.rel_append pairsAll (.cons pairs .nil)
  | supply prim held forced =>
    obtain ⟨_, _, _, rfl, rfl, form, ⟨_, _, rfl, ⟨⟩, paired⟩, rest, forms⟩ := shares.returns
    rw [prim] at forms
    cases forms with
    | primitive =>
      obtain ⟨k, aft, moves, next⟩ := (shares.names paired rest _).look
        (.reuse (by simp [Store.find]) held forced)
      exact ⟨k, pr, aft, moves.supplied form, same, next⟩
  | demand prim held unforced =>
    obtain ⟨_, _, _, rfl, rfl, form, ⟨_, _, rfl, ⟨⟩, paired⟩, rest, forms⟩ := shares.returns
    rw [prim] at forms
    cases forms with
    | primitive =>
      obtain ⟨k, aft, moves, next⟩ := (shares.names paired rest _).look
        (.enter (by simp [Store.find]) held unforced)
      exact ⟨k, pr, aft, moves.supplied form, same, next⟩
  | @call _ x _ _ r computed =>
    cases controls with
    | value forms =>
      cases fs with
      | call _ rest =>
        rcases uniform pr x _ _ forms with
          ⟨produced, o, computedHere, computedAlso, alike⟩ | ⟨er, _, failed⟩
        · cases computed.symm.trans computedAlso
          exact ⟨0, pr, _, .single (.move (by simp) (.call computedHere)), same, folds,
            rest, .value alike, markedNext, fun en forcing => by simpa using begun en forcing⟩
        · simp [computed] at failed

/-- A plain thunk whose counterpart is being evaluated holds a term, by which it can be
named. -/
theorem Folds.isWritable {shared : Store} (folds : Folds pr plain shared) (paired : pr pl = some a)
    (forcing : shared.phase? a = some .forcing) (held : plain.thunk? pl = some th) :
    th.isWritable := by
  obtain ⟨former, o, there, also, same⟩ := folds.held paired
  cases held.symm.trans there
  refine same.isWritable fun forced => ?_
  simp [Store.phase?, also, forced] at forcing

theorem Shares.named {plain : Configuration} (shares : Shares pr plain shared)
    (folds : Folds pr aft shared.store) {en : Address} (mem : en ∈ updates plain.stack)
    (held : aft.thunk? en = some th) : th.isWritable := by
  obtain ⟨tg, paired, waits⟩ := shares.frames.mem (mem_updates.mp mem)
  exact folds.isWritable paired (shares.marked.forcing_iff.mpr (mem_updates.mpr waits)) held

/-- It can name those that it marked with a counterpart that is being evaluated. -/
theorem Shares.namedAfter {plain : Configuration} (shares : Shares pr plain shared)
    (folds : Folds pr aft shared.store) (forcing : shared.store.phase? a = some .forcing)
    {en : Address} (waits : en ∈ updates plain.stack ∨ pr en = some a)
    (held : aft.thunk? en = some th) : th.isWritable := by
  rcases waits with mem | paired
  · exact shares.named folds mem held
  · exact folds.isWritable paired forcing held

/-- The two machines raise alike, and the plain one can name all that it evaluated. -/
def FailsAlike (host : Host) (plain : Configuration) (er : Raised) : Prop :=
  ∃ k last o, MovesWith Store.suspend host k plain last ∧ Raise host last o ∧
    o.Alike er ∧ ∀ en ∈ updates last.stack, ∀ th, last.store.thunk? en = some th → th.isWritable

theorem FailsAlike.supplied (form : v.form = .primitive prim)
    (fails : FailsAlike host
      ⟨some (.var "", .layer "" (some pl) (.root 0)), v, .call prim :: stk, plain⟩ er) :
    FailsAlike host ⟨none, v, .argument (some pl) :: stk, plain⟩ er := by
  obtain ⟨k, last, o, moves, raise, alike, named⟩ := fails
  cases k with
  | zero =>
    cases moves
    exact ⟨0, _, o, .refl _, raise.supplied form, alike, named⟩
  | succ k => exact ⟨k + 1, last, o, moves.supplied form, raise, alike, named⟩

/-- A name stands for a thunk that is being evaluated, on both sides. -/
theorem Shares.entangled (shares : Shares pr ⟨focus, v, stk, plain⟩ ⟨some (.var x, env), r, k, s⟩)
    (wr : s.Writable) (found : s.find x env = some a) (held : s.thunk? a = some th)
    (forcing : th.phase = .forcing) : FailsAlike host ⟨focus, v, stk, plain⟩ th.cycle := by
  have enclosing := @shares.namedAfter
  obtain ⟨folds, _, controls, _, _⟩ := shares
  cases controls with
  | term envs =>
    obtain ⟨pl, foundPlace, paired⟩ := folds.found envs found
    obtain ⟨k, last, lb, moves, raise, foldsAfter, waits⟩ :=
      folds.entangle held forcing pl paired foundPlace v stk
    refine ⟨k, last, _, moves, raise, ?_, fun en mem th heldThunk => ?_⟩
    · rw [Thunk.cycle, if_pos (wr a th held (by simp [forcing]))]
      exact .cyclic lb th.label [] []
    grind [Store.phase?]

/-- Where the shared machine fails, the plain machine comes to fail alike. -/
theorem Shares.raise (uniform : host.Uniform) {plain : Configuration}
    (shares : Shares pr plain shared) (wr : shared.store.Writable)
    (raise : Raise host shared er) : FailsAlike host plain er := by
  have named : ∀ en ∈ updates plain.stack, ∀ th,
      plain.store.thunk? en = some th → th.isWritable := by
    intro en mem th held
    exact shares.named shares.folds mem held
  obtain ⟨focus, v, stk, plain⟩ := plain
  obtain ⟨folds, fs, controls, _, _⟩ := id shares
  cases raise with
  | @unbound x env _ _ s lost =>
    cases controls with
    | term envs =>
      rcases folds.find envs x with ⟨lostHere, _⟩ | ⟨_, _, _, found, _⟩
      · exact ⟨0, _, _, .refl _, .unbound lostHere, .same _, named⟩
      · simp [lost] at found
  | dangling found empty =>
    cases controls with
    | term envs =>
      obtain ⟨pl, _, paired⟩ := folds.found envs found
      obtain ⟨_, o, _, there, _⟩ := folds.held paired
      simp [empty] at there
  | cyclic found held forcing => exact shares.entangled wr found held forcing
  | @refused r _ _ _ refuses =>
    obtain ⟨_, _, _, rfl, rfl, form, _, _, forms⟩ := shares.returns
    generalize formAlso : r.form = sharedForm at forms refuses
    cases forms with
    | closure => cases refuses
    | neutral => cases refuses
    | primitive => cases refuses
    | constant dt =>
      have same : v.refusal = r.refusal := by
        simp [Value.refusal, Value.isWritable, Value.text, form, formAlso]
      refine ⟨0, _, _, .refl _, .refused (by simp [form, Form.isApplicable]), ?_, named⟩
      rw [same]
      exact .same _
  | unsupplied prim empty =>
    obtain ⟨_, _, _, rfl, rfl, _, ⟨_, _, rfl, rfl, paired⟩, _, _⟩ := shares.returns
    obtain ⟨_, o, _, there, _⟩ := folds.held paired
    simp [there] at empty
  | cyclicArgument prim held forcing =>
    obtain ⟨_, _, _, rfl, rfl, form, ⟨_, _, rfl, ⟨⟩, paired⟩, rest, forms⟩ := shares.returns
    rw [prim] at forms
    cases forms with
    | primitive =>
      exact ((shares.names paired rest _).entangled wr (by simp [Store.find]) held
        forcing).supplied form
  | @host _ x _ _ _ failed =>
    cases controls with
    | value forms =>
      cases fs with
      | call _ rest =>
        rcases uniform pr x _ _ forms with
          ⟨produced, o, _, computed, _⟩ | ⟨raised, failedHere, failedAlso⟩
        · simp [failed] at computed
        · cases failed.symm.trans failedAlso
          exact ⟨0, _, _, .refl _, .host failedHere, .same _, named⟩

end CallByNeed
