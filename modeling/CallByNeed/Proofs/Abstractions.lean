import CallByNeed.Proofs.Clients

/-!
# Thunks of abstractions

A thunk whose term is an abstraction gets the closure of just this abstraction as
its value, with the names of its parameters.  What thunks stand for does not say
so, since it leaves out the names.  The evaluation of such a thunk is completed
before anything else is done: its frame is on the stack only while it is the
first one (`Configuration.Abstracts`).

So a name that stands for such a thunk is evaluated in a few transitions, which
change nothing else (`Store.Offers.fetch`).
-/

namespace CallByNeed

/-- A thunk of an abstraction holds the abstraction, or its closure. -/
inductive Thunk.Abstracts (p : Name) (b : Term) (env : Env) (th : Thunk) : Prop where
  | code (notForced : th.phase ≠ .forced) (ct : th.content = .code (.lam p b) env)
  | value (forced : th.phase = .forced) (form : th.value.form = .closure p b env)

/-- The thunk of an abstraction is in a store. -/
def Store.Abstracts (s : Store) (a : Address) (p : Name) (b : Term) (env : Env) : Prop :=
  ∃ th, s.thunk? a = some th ∧ th.Abstracts p b env

/-- A thunk of an abstraction is evaluated at once when it is entered. -/
structure Configuration.Abstracts (c : Configuration) (a : Address)
    (p : Name) (b : Term) (env : Env) : Prop where
  store : c.store.Abstracts a p b env
  frame : .update a ∉ c.stack ∨
    ∃ rest, c.stack = .update a :: rest ∧ .update a ∉ rest ∧
      (c.focus = some (.lam p b, env) ∨
        c.focus = none ∧ c.value.form = .closure p b env)

variable {a : Address} {p : Name} {b : Term} {env : Env}

namespace Store.Abstracts

variable {bef aft : Store}

section

variable (abstracts : bef.Abstracts a p b env)

include abstracts

theorem steady (steady : bef.Steady aft a) : aft.Abstracts a p b env := by
  obtain ⟨th, held, abstracts⟩ := abstracts
  obtain ⟨later, there, ct, phase⟩ := steady held
  refine ⟨later, there, ?_⟩
  cases abstracts with
  | code notForced code => exact .code (mt phase.mp notForced) (ct.trans code)
  | value forced form =>
    exact .value (phase.mpr forced) (by simpa [Thunk.value, ct] using form)

theorem keeps (keeps : ∀ {th}, bef.thunk? a = some th → aft.thunk? a = some th) :
    aft.Abstracts a p b env :=
  abstracts.steady fun held => ⟨_, keeps held, rfl, Iff.rfl⟩

theorem entered (held : bef.thunk? a = some th) (unforced : th.phase = .unforced) :
    th.code? = some (.lam p b, env) := by
  obtain ⟨o, there, abstracts⟩ := abstracts
  cases held.symm.trans there
  cases abstracts with
  | code _ ct => simp [Thunk.code?, ct]
  | value forced => simp [unforced] at forced

theorem memoize {o : Address} (fits : o = a → v.form = .closure p b env) :
    (bef.update o (·.memoize v)).Abstracts a p b env := by
  obtain ⟨th, held, holds⟩ := abstracts
  by_cases same : o = a
  · subst same
    exact ⟨th.memoize v, by simp [held], .value rfl (fits rfl)⟩
  · exact ⟨th, by simp [same, held], holds⟩

end

end Store.Abstracts

namespace Configuration.Abstracts

/-- A thunk is entered, which is that of the abstraction or another one. -/
theorem entered {c : Configuration} {s : Store} {o : Address} {th : Thunk} {v : Value}
    {k : List Frame} (abstracts : s.Abstracts a p b env) (absent : .update a ∉ k)
    (held : s.thunk? o = some th) (unforced : th.phase = .unforced)
    (same : c = ⟨th.code?, v, .update o :: k, s.update o Thunk.begin⟩) : c.Abstracts a p b env := by
  subst same
  refine ⟨abstracts.steady (Store.steady_begin held unforced a), ?_⟩
  by_cases own : o = a
  · subst own
    exact .inr ⟨k, rfl, absent, .inl (abstracts.entered held unforced)⟩
  grind

theorem move {host : Host} {bef aft : Configuration} (abstracts : bef.Abstracts a p b env)
    (move : Move host bef aft) : aft.Abstracts a p b env := by
  obtain ⟨there, fr⟩ := abstracts
  cases move with
  | reuse found held forced =>
    exact ⟨there, .inl (fr.resolve_right (by simp))⟩
  | enter found held unforced => grind [entered]
  | close =>
    refine ⟨there.keeps id, ?_⟩
    rcases fr with absent | ⟨rest, k, absent, focus | ⟨none, _⟩⟩
    · exact .inl absent
    · simp_all
    · cases none
  | postpone =>
    exact ⟨there.keeps fun held => Store.thunk?_delay held _ _,
      .inl (by simpa using fr.resolve_right (by simp))⟩
  | @memoize v o k s =>
    rcases fr with absent | ⟨rest, same, absent, focus | ⟨_, form⟩⟩
    · simp only [List.mem_cons, Frame.update.injEq, not_or] at absent
      exact ⟨there.memoize fun same => absurd same.symm absent.1, .inl absent.2⟩
    · cases focus
    · cases same
      exact ⟨there.memoize fun _ => form, .inl absent⟩
  | bind closure =>
    exact ⟨there, .inl (by simpa using fr.resolve_right (by simp))⟩
  | extend neutral =>
    exact ⟨there.keeps id, .inl (by simpa using fr.resolve_right (by simp))⟩
  | supply prim held forced =>
    exact ⟨there, .inl (by simpa using fr.resolve_right (by simp))⟩
  | demand prim held unforced => grind [entered]
  | call computed =>
    exact ⟨there, .inl (by simpa using fr.resolve_right (by simp))⟩

end Configuration.Abstracts

/-! ### Requests -/

/-- Thunks of abstractions stay such thunks. -/
def Store.KeepsAbstractions (bef aft : Store) : Prop :=
  ∀ {a p b env}, bef.Abstracts a p b env → aft.Abstracts a p b env

theorem kept_abstractions (cfg : Settings) : Kept cfg (· = .outOfFuel) Store.KeepsAbstractions := by
  apply Kept.of_moves
  · exact fun _ => id
  · exact fun early late _ _ _ _ abstracts => late (early abstracts)
  · exact fun s v _ _ _ _ abstracts =>
      abstracts.keeps fun held => Store.thunk?_alloc_of_some held _
  · exact fun s form _ _ _ _ abstracts => abstracts.keeps id
  · intro st0 last k noFrames moves a p b env abstracts
    have underway : last.Abstracts a p b env :=
      moves.preserves (·.Abstracts a p b env)
        ⟨abstracts, .inl (noFrames a)⟩ fun _ _ ely move => ely.move move
    exact underway.store
  · intro bef st er kept a p b env abstracts
    rcases st.abandon_engine er with same | same
    · rw [same]
      exact (kept abstracts).steady (st.steady_unwind a)
    · rw [same]
      exact kept abstracts

/-- Whatever a client did, the thunk of an abstraction holds it or its closure. -/
theorem Obtained.abstracts {lk : Store} {held : Holdings} (obtained : Obtained lk s held)
    (abstracts : lk.Abstracts a p b env) : s.Abstracts a p b env := by
  induction obtained with
  | start => exact abstracts
  | @request cfg _ _ _ _ _ _ _ perf ended ih =>
    exact (kept_abstractions cfg).perform perf ended ih
  | declared _ _ ih => exact ih
  | suspended _ _ ih => exact ih.keeps fun held => Store.thunk?_alloc_of_some held _
  | captured _ _ _ _ _ ih => exact ih
  | @evaluated cfg _ _ _ _ _ _ _ _ evd ih =>
    exact (kept_abstractions cfg).evaluate evd (by simp) ih
  | @forced cfg _ _ _ _ _ _ _ _ forced ih =>
    exact (kept_abstractions cfg).force forced (by simp) ih
  | @applied cfg _ _ _ _ _ _ _ _ _ _ applied ih =>
    exact (kept_abstractions cfg).apply applied (by simp) ih
  | opened _ _ ih => exact ih.keeps fun held => Store.thunk?_alloc_of_some held _

/-! ### Evaluation -/

/-- The thunk of an abstraction is in a store, and is not being evaluated. -/
def Store.Offers (s : Store) (a : Address) (p : Name) (b : Term) (env : Env) : Prop :=
  ∃ th, s.thunk? a = some th ∧ th.phase ≠ .forcing ∧ th.Abstracts p b env

theorem Store.Settled.offers {s : Store} (settled : s.Settled) (abstracts : s.Abstracts a p b env) :
    s.Offers a p b env := by
  obtain ⟨th, held, abstracts⟩ := abstracts
  refine ⟨th, held, fun forcing => ?_, abstracts⟩
  exact settled a (by simp [Store.phase?, held, forcing])

/-- A store where abstractions can be fetched as before. -/
structure Store.Upholds (bef aft : Store) : Prop where
  tables : aft.tables = bef.tables
  offers : ∀ {a p b env}, bef.Offers a p b env →
    aft.Offers a p b env

namespace Store.Upholds

variable {bef mid aft : Store}

theorem refl (s : Store) : s.Upholds s := ⟨rfl, id⟩

theorem trans (early : bef.Upholds mid) (late : mid.Upholds aft) : bef.Upholds aft :=
  ⟨late.tables.trans early.tables, fun offers => late.offers (early.offers offers)⟩

theorem keeps (tbs : aft.tables = bef.tables)
    (keeps : ∀ {a th}, bef.thunk? a = some th → aft.thunk? a = some th) : bef.Upholds aft :=
  ⟨tbs, fun ⟨th, held, fits⟩ => ⟨th, keeps held, fits⟩⟩

theorem build (s : Store) (form : Form) : s.Upholds (s.build form).2 := .keeps rfl id

theorem alloc (s : Store) (added : Thunk) : s.Upholds (s.alloc added).2 :=
  .keeps rfl fun held => thunk?_alloc_of_some held added

theorem delay (s : Store) (t : Term) (env : Env) : s.Upholds (s.delay t env).2 :=
  .keeps (by simp) fun held => thunk?_delay held t env

theorem update (upholds : bef.Upholds aft) {added : Address} (new : bef.size ≤ added)
    (change : Thunk → Thunk) : bef.Upholds (aft.update added change) := by
  refine ⟨upholds.tables, fun {a _ _ _} offered => ?_⟩
  have apart : added ≠ a := by
    rintro rfl
    obtain ⟨_, held, _⟩ := offered
    exact Nat.not_lt.mpr new (thunk?_lt held)
  obtain ⟨th, there, fits⟩ := upholds.offers offered
  exact ⟨th, by simp [apart, there], fits⟩

end Store.Upholds

namespace Store.Offers

variable {s : Store}

theorem lt (offers : s.Offers a p b env) : a < s.size := by
  obtain ⟨_, held, _⟩ := offers
  exact thunk?_lt held

/-- The value of a name that stands for an abstraction. -/
theorem fetch (offers : s.Offers a p b env) {sc : Env} (found : s.find x sc = some a)
    (host : Host) (v : Value) (k : List Frame) :
    ∃ cnt r aft, Moves host cnt ⟨some (.var x, sc), v, k, s⟩ ⟨none, r, k, aft⟩ ∧
      r.form = .closure p b env ∧ s.Upholds aft ∧ ∀ o, o ≠ a → aft.thunk? o = s.thunk? o := by
  obtain ⟨th, held, notForcing, abstracts⟩ := offers
  cases abstracts with
  | value forced form =>
    exact ⟨_, _, s, .step (.reuse found held forced) (.refl _), form, .refl s, fun _ _ => rfl⟩
  | code notForced ct =>
    have unforced : th.phase = .unforced := by
      cases phase : th.phase <;> simp_all
    have code : th.code? = some (.lam p b, env) := by
      simp [Thunk.code?, ct]
    have enter : Move host ⟨some (.var x, sc), v, k, s⟩ _ := .enter found held unforced
    rw [code] at enter
    refine ⟨_, _, _, .step enter (.step .close (.step .memoize (.refl _))), rfl, ?_, ?_⟩
    · refine ⟨rfl, fun {o _ _ _} offered => ?_⟩
      obtain ⟨bef, there, notForcing, holds⟩ := offered
      by_cases same : a = o
      · subst same
        cases held.symm.trans there
        refine ⟨_, by simp [held]; rfl, by simp, .value rfl ?_⟩
        cases holds with
        | code _ again =>
          cases ct.symm.trans again
          rfl
        | value forced => exact absurd forced notForced
      · exact ⟨bef, by simp [same, there], notForcing, holds⟩
    · intro o apart
      simp [Ne.symm apart]

end Store.Offers

end CallByNeed
