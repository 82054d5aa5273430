import CallByNeed.Proofs.Program

/-!
# Records of evaluations

A thunk that was evaluated holds its value and nothing else.  A ledger records
what its evaluation was: the term that it held and the thunks that were added
for arguments on the way.  With it the evaluation can be gone through again
without changing the store (`Echoes`), since every value that was asked for on
the way is there.

Evaluations that are given up leave no record, so what is recorded stays true
whatever is asked of the engine afterwards.
-/

variable {v : Value} {env : Env} {bound : Nat} {src : Option (Term × Env)}
  {kids : List Address} {st : State} {more : Nat} {t : Term}

namespace CallByNeed

/-- What is evaluated, or the form of the value that comes back. -/
inductive Aim where
  | term (t : Term) (env : Env)
  | form (form : Form)

/-- A term in focus makes the value of a configuration irrelevant. -/
def Configuration.aim (c : Configuration) : Aim :=
  match c.focus with
  | some (t, env) => .term t env
  | none => .form c.value.form

/-- The part of a configuration that belongs to the evaluation of one thunk:
its frames end above the next thunk to update. -/
structure Part where
  aim : Aim
  frames : List Frame

/-- The next thing needed is the value of a thunk, which is returned to the
given frames. -/
inductive Asks (s : Store) : Part → Address → List Frame → Prop where
  | name {x env fs a} (found : Store.find s x env = some a) :
      Asks s ⟨.term (.var x) env, fs⟩ a fs
  | primitive {x fs a} :
      Asks s ⟨.form (.primitive x), .argument (some a) :: fs⟩ a (.call x :: fs)

/-- What is remembered of thunks: the term that they held, the thunk in whose
evaluation they were added, and of those with a value which thunks were added
for it.  A rank is above the ranks of all thunks that were asked for. -/
structure Ledger where
  source : Address → Option (Term × Env)
  owner : Address → Option Address
  children : Address → List Address
  rank : Address → Nat

/-- A thunk was added for an argument. -/
inductive Ledger.Delayed (lg : Ledger) (s : Store) (kid : Address) :
    Term → Env → Prop where
  | evaluated {th p b env} (held : s.thunk? kid = some th)
      (unnamed : th.name = none) (forced : th.phase = .forced)
      (form : th.value.form = .closure p b env) :
      Delayed lg s kid (.lam p b) env
  | suspended {th t env} (held : s.thunk? kid = some th)
      (unnamed : th.name = none) (notAbstraction : ∀ p b, t ≠ .lam p b)
      (src : lg.source kid = some (t, env)) :
      Delayed lg s kid t env

/-- A transition that is gone through again in a store where all that it needs
is there, with the thunk that it added.  Thunks that are asked for rank below
the bound. -/
inductive Echo (host : Host) (lg : Ledger) (s : Store) (bound : Nat) :
    List Address → Part → Part → Prop where
  | answer {part a fs th} (asks : Asks s part a fs)
      (held : s.thunk? a = some th) (forced : th.phase = .forced)
      (older : lg.rank a < bound) :
      Echo host lg s bound [] part ⟨.form th.value.form, fs⟩
  | close {p b env fs} :
      Echo host lg s bound [] ⟨.term (.lam p b) env, fs⟩ ⟨.form (.closure p b env), fs⟩
  | pass {f x env a fs} (found : Store.find s x env = some a) :
      Echo host lg s bound [] ⟨.term (.app f (.var x)) env, fs⟩
        ⟨.term f env, .argument (some a) :: fs⟩
  | postpone {f arg env kid fs} (unbound : ∀ x, arg = .var x → Store.find s x env = none)
      (delayed : lg.Delayed s kid arg env) :
      Echo host lg s bound [kid] ⟨.term (.app f arg) env, fs⟩
        ⟨.term f env, .argument (some kid) :: fs⟩
  | bind {p b env arg fs} :
      Echo host lg s bound [] ⟨.form (.closure p b env), .argument arg :: fs⟩
        ⟨.term b (.layer p arg env), fs⟩
  | extend {x args arg fs} :
      Echo host lg s bound [] ⟨.form (.neutral x args), .argument arg :: fs⟩
        ⟨.form (.neutral x (args ++ [arg])), fs⟩
  | call {x v r fs} (computed : host x v = .ok r) :
      Echo host lg s bound [] ⟨.form v.form, .call x :: fs⟩ ⟨.form r.form, fs⟩

/-- A row of transitions gone through again, with the thunks that they added. -/
inductive Echoes (host : Host) (lg : Ledger) (s : Store) (bound : Nat) :
    List Address → Part → Part → Prop where
  | refl (part : Part) : Echoes host lg s bound [] part part
  | step {kids more : List Address} {fst next last : Part}
      (echo : Echo host lg s bound kids fst next)
      (echoes : Echoes host lg s bound more next last) :
      Echoes host lg s bound (kids ++ more) fst last

/-- A store and its ledger may go on: thunks keep their names, and those with a
value stay as they are, with what is recorded of them. -/
structure Ledger.Grows (lg : Ledger) (bef : Store) (o : Ledger) (aft : Store) :
    Prop where
  tables : aft.tables = bef.tables
  keeps : ∀ {a th}, bef.thunk? a = some th →
    ∃ later, aft.thunk? a = some later ∧ later.name = th.name ∧
      (th.phase = .forced → later = th)
  source : ∀ {a}, a < bef.size → o.source a = lg.source a
  owner : ∀ {a}, a < bef.size → o.owner a = lg.owner a
  rank : ∀ {a}, bef.phase? a = some .forced →
    o.rank a = lg.rank a

section Growth

variable {host : Host} {lg o : Ledger} {bef aft : Store}

theorem Ledger.Grows.refl (lg : Ledger) (s : Store) : lg.Grows s lg s :=
  ⟨rfl, fun held => ⟨_, held, rfl, fun _ => rfl⟩, fun _ => rfl, fun _ => rfl, fun _ => rfl⟩

theorem Ledger.Grows.lt (grows : lg.Grows bef o aft) (within : a < bef.size) : a < aft.size := by
  obtain ⟨th, held⟩ := Store.thunk?_of_lt within
  obtain ⟨later, there, _⟩ := grows.keeps held
  exact Store.thunk?_lt there

theorem Ledger.Grows.held (grows : lg.Grows bef o aft) (held : bef.thunk? a = some th)
    (forced : th.phase = .forced) : aft.thunk? a = some th := by
  obtain ⟨later, there, _, same⟩ := grows.keeps held
  rw [there, same forced]

theorem Ledger.Grows.forced (grows : lg.Grows bef o aft) (forced : bef.phase? a = some .forced) :
    aft.phase? a = some .forced := by grind [held, Option.map_eq_some_iff, Store.phase?]

theorem Ledger.Grows.trans {thd : Ledger} {last : Store} (early : lg.Grows bef o aft)
    (late : o.Grows aft thd last) : lg.Grows bef thd last := by
  constructor
  · exact late.tables.trans early.tables
  · intro a th held
    obtain ⟨later, there, x, same⟩ := early.keeps held
    obtain ⟨fi, thereLast, nameLast, sameLast⟩ := late.keeps there
    simp_all
  · intro a within
    rw [late.source (early.lt within), early.source within]
  · intro a within
    rw [late.owner (early.lt within), early.owner within]
  · intro a forced
    rw [late.rank (early.forced forced), early.rank forced]

theorem Asks.grow {fs : List Frame} (asks : Asks bef part a fs)
    (tbs : aft.tables = bef.tables) : Asks aft part a fs := by
  cases asks with
  | name found => exact .name (by rwa [Store.find_congr tbs])
  | primitive => exact .primitive

theorem Ledger.Delayed.grow (delayed : lg.Delayed bef kid t env)
    (grows : lg.Grows bef o aft) : o.Delayed aft kid t env := by
  cases delayed with
  | evaluated held unnamed forced form =>
    exact .evaluated (grows.held held forced) unnamed forced form
  | suspended held unnamed notAbstraction src =>
    obtain ⟨later, there, x, _⟩ := grows.keeps held
    refine .suspended there (x.trans unnamed) notAbstraction ?_
    rw [grows.source (Store.thunk?_lt held), src]

theorem Echo.grow {fst last : Part} (echo : Echo host lg bef bound kids fst last)
    (grows : lg.Grows bef o aft) (le : bound ≤ more) : Echo host o aft more kids fst last := by
  cases echo with
  | answer asks held forced older =>
    refine .answer (asks.grow grows.tables) (grows.held held forced) forced ?_
    rw [grows.rank (by simp [Store.phase?, held, forced])]
    omega
  | close => exact .close
  | pass found => exact .pass (by rwa [Store.find_congr grows.tables])
  | postpone unbound delayed =>
    refine .postpone (fun x same => ?_) (delayed.grow grows)
    rw [Store.find_congr grows.tables]
    exact unbound x same
  | bind => exact .bind
  | extend => exact .extend
  | call computed => exact .call computed

theorem Echoes.grow {fst last : Part} (echoes : Echoes host lg bef bound kids fst last)
    (grows : lg.Grows bef o aft) (le : bound ≤ more) : Echoes host o aft more kids fst last := by
  induction echoes with
  | refl part => exact .refl part
  | step echo _ ih => exact .step (echo.grow grows le) ih

theorem Echoes.snoc {more : List Address} {fst next last : Part}
    (echoes : Echoes host lg bef bound kids fst next)
    (echo : Echo host lg bef bound more next last) :
    Echoes host lg bef bound (kids ++ more) fst last := by
  induction echoes with
  | refl part =>
    have single := Echoes.step echo (.refl last)
    simp_all
  | step fr _ ih =>
    rw [List.append_assoc]
    exact .step fr (ih echo)

end Growth

variable {s : Store} {fr : Frame}

namespace Ledger

/-- The ledger with a thunk that is added to a store. -/
def add (lg : Ledger) (a : Address) (src : Option (Term × Env)) (own : Option Address) : Ledger :=
  { lg with
    source := Function.update lg.source a src
    owner := Function.update lg.owner a own }

/-- The ledger with an evaluation that has ended. -/
def close (lg : Ledger) (a : Address) (kids : List Address) (rank : Nat) :
    Ledger :=
  { lg with
    children := Function.update lg.children a kids
    rank := Function.update lg.rank a rank }

theorem grows_add (lg : Ledger) (s : Store) (added : Thunk) (src : Option (Term × Env))
    (own : Option Address) : lg.Grows s (lg.add s.size src own) (s.alloc added).2 := by
  constructor
  · rfl
  · grind [Store.thunk?_alloc_of_some]
  · intro a within
    simp [add, Nat.ne_of_lt within]
  · intro a within
    simp [add, Nat.ne_of_lt within]
  · intro a forced
    rfl

theorem grows_build (lg : Ledger) (s : Store) (form : Form) : lg.Grows s lg (s.build form).2 :=
  ⟨rfl, fun held => ⟨_, held, rfl, fun _ => rfl⟩, fun _ => rfl, fun _ => rfl, fun _ => rfl⟩

theorem grows_begin (lg : Ledger) (held : s.thunk? a = some th) (unforced : th.phase = .unforced) :
    lg.Grows s lg (s.update a Thunk.begin) := by
  refine ⟨rfl, fun {pl found} there => ?_, fun _ => rfl, fun _ => rfl, fun _ => rfl⟩
  rw [Store.thunk?_update]
  split
  · simp_all
  simp_all

theorem grows_close (lg : Ledger) (held : s.thunk? a = some th) (notForced : th.phase ≠ .forced)
    (v : Value) (kids : List Address) (rank : Nat) :
    lg.Grows s (lg.close a kids rank) (s.update a (·.memoize v)) := by
  refine ⟨rfl, fun {pl found} there => ?_, fun _ => rfl, fun _ => rfl, fun {pl} forced => ?_⟩
  · rw [Store.thunk?_update]
    split
    · simp_all
    simp_all
  · have differ : pl ≠ a := by grind [Store.phase?]
    simp [close, differ]

end Ledger

/-- What a ledger says about a store is true.  Thunks of the program have no
owner. -/
structure Ledger.Fits (host : Host) (lk : Store) (lg : Ledger) (s : Store) :
    Prop where
  tables : s.tables = lk.tables
  declared : ∀ {a th}, lk.thunk? a = some th →
    lg.source a = th.code? ∧ lg.owner a = none ∧
      ∃ later, s.thunk? a = some later ∧ later.name = th.name
  code : ∀ {a th}, s.thunk? a = some th → th.phase ≠ .forced →
    ∃ t env, th.content = .code t env ∧ lg.source a = some (t, env)
  echoes : ∀ {a th t env}, s.thunk? a = some th →
    th.phase = .forced → lg.source a = some (t, env) →
    Echoes host lg s (lg.rank a) (lg.children a) ⟨.term t env, []⟩ ⟨.form th.value.form, []⟩
  owned : ∀ {a kid}, kid ∈ lg.children a →
    lg.owner kid = some a ∧ kid < s.size ∧
      s.phase? a = some .forced
  distinct : ∀ a, (lg.children a).Nodup

namespace Ledger.Fits

variable {host : Host} {lk bef aft : Store} {lg o : Ledger}

theorem start (wlk : lk.Linked) :
    Fits host lk
      ⟨fun a => (lk.thunk? a).bind Thunk.code?, fun _ => none, fun _ => [], fun _ => 0⟩ lk := by
  constructor
  · rfl
  · simp_all
  · intro a th held _
    obtain ⟨t, num, x, rfl⟩ := wlk.declared held
    grind [Thunk.code?, Thunk.suspended]
  · intro a th t env held forced _
    obtain ⟨t, num, x, rfl⟩ := wlk.declared held
    cases forced
  · simp
  simp

section

variable (fits : Fits host lk lg bef)

include fits

theorem writable : bef.Writable := by
  intro a th held unforced
  obtain ⟨t, env, ct, _⟩ := fits.code held unforced
  obtain ⟨x, _, phase⟩ := th
  cases ct
  cases x <;> rfl

/-- A change of the store that gives no thunk a value, apart from thunks that
are added with one. -/
theorem grow (grows : lg.Grows bef o aft) (sameChildren : o.children = lg.children)
    (code : ∀ {a th}, aft.thunk? a = some th → th.phase ≠ .forced →
      ∃ t env, th.content = .code t env ∧ o.source a = some (t, env))
    (old : ∀ {a th}, aft.thunk? a = some th → th.phase = .forced →
      bef.thunk? a = some th ∨ o.source a = none) : Fits host lk o aft := by
  constructor
  · exact grows.tables.trans fits.tables
  · intro a th held
    obtain ⟨src, own, later, there, x⟩ := fits.declared held
    obtain ⟨last, thereNow, nameNow, _⟩ := grows.keeps there
    have within := Store.thunk?_lt there
    exact ⟨(grows.source within).trans src, (grows.owner within).trans own, last,
      thereNow, nameNow.trans x⟩
  · exact code
  · intro a th t env held forced src
    rcases old held forced with there | unrecorded
    · rw [grows.source (Store.thunk?_lt there)] at src
      rw [sameChildren, grows.rank (by simp [Store.phase?, there, forced])]
      exact (fits.echoes there forced src).grow grows (Nat.le_refl _)
    simp_all
  · intro a kid mem
    rw [sameChildren] at mem
    obtain ⟨own, within, forced⟩ := fits.owned mem
    exact ⟨(grows.owner within).trans own, grows.lt within, grows.forced forced⟩
  · intro a
    rw [sameChildren]
    exact fits.distinct a

theorem build (form : Form) : Fits host lk lg (bef.build form).2 :=
  fits.grow (grows_build lg bef form) rfl fits.code fun held _ => .inl held

theorem begin (held : bef.thunk? a = some th) (unforced : th.phase = .unforced) :
    Fits host lk lg (bef.update a Thunk.begin) := by
  refine fits.grow (lg.grows_begin held unforced) rfl ?_ ?_
  · intro pl found there notForced
    rw [Store.thunk?_update] at there
    split at there
    · rename_i same
      subst same
      rw [held] at there
      cases there
      obtain ⟨t, env, ct, src⟩ := fits.code held (by simp [unforced])
      simp_all
    · exact fits.code there notForced
  · intro pl found there forced
    rw [Store.thunk?_update] at there
    split at there
    · rename_i same
      subst same
      rw [held] at there
      cases there
      simp at forced
    · exact .inl there

omit fits in
theorem unwind (fits : Fits host lk lg st.engine.store) :
    Fits host lk lg st.unwind.store := by
  have grows : lg.Grows st.engine.store lg st.unwind.store := by
    refine ⟨st.unwind_tables, fun {a th} held => ?_, fun _ => rfl, fun _ => rfl, fun _ => rfl⟩
    grind [State.unwind_thunk?, Thunk.reset]
  refine fits.grow grows rfl ?_ ?_
  · intro a th held notForced
    rw [State.unwind_thunk?] at held
    split at held
    · obtain ⟨begun, there, rfl⟩ := Option.map_eq_some_iff.mp held
      rw [Thunk.content_reset]
      exact fits.code there fun forced => notForced (Thunk.phase_reset_eq_forced.mpr forced)
    · exact fits.code held notForced
  grind [State.unwind_thunk?, Option.map_eq_some_iff, Thunk.reset]

omit fits in
theorem abandon (fits : Fits host lk lg st.engine.store) (er : Raised) :
    Fits host lk lg (st.abandon er).2.store := by
  rcases st.abandon_engine er with same | same
  · rw [same]
    exact fits.unwind
  simp_all

theorem add {added : Thunk}
    (recorded : (∃ t env x, added = .suspended t env x ∧ src = some (t, env)) ∨
      ∃ v x, added = .evaluated v x ∧ src = none) (own : Option Address) :
    Fits host lk (lg.add bef.size src own) (bef.alloc added).2 := by
  refine fits.grow (grows_add lg bef added src own) rfl ?_ ?_
  · intro a th held notForced
    rw [Store.thunk?_alloc] at held
    split at held
    · rename_i same
      cases held
      rcases recorded with ⟨t, env, x, rfl, rfl⟩ | ⟨v, x, rfl, rfl⟩
      · exact ⟨t, env, rfl, by simp [Ledger.add, same]⟩
      · exact absurd rfl notForced
    · rename_i differ
      simpa [Ledger.add, differ] using fits.code held notForced
  · intro a th held forced
    rw [Store.thunk?_alloc] at held
    split at held
    · rename_i same
      cases held
      rcases recorded with ⟨t, env, x, rfl, rfl⟩ | ⟨v, x, rfl, rfl⟩
      · cases forced
      · exact .inr (by simp [Ledger.add, same])
    · exact .inl held

theorem memoize (held : bef.thunk? a = some th)
    (notForced : th.phase ≠ .forced) (src : lg.source a = some (t, env))
    (echoes : Echoes host lg bef bound kids ⟨.term t env, []⟩ ⟨.form v.form, []⟩)
    (owned : ∀ kid ∈ kids, lg.owner kid = some a ∧ kid < bef.size) (dst : kids.Nodup) :
    Fits host lk (lg.close a kids bound) (bef.update a (·.memoize v)) := by
  have grows := lg.grows_close held notForced v kids bound
  constructor
  · exact fits.tables
  · intro pl found there
    obtain ⟨sourceThere, own, later, thereNow, x⟩ := fits.declared there
    obtain ⟨last, thereLast, nameLast, _⟩ := grows.keeps thereNow
    exact ⟨sourceThere, own, last, thereLast, nameLast.trans x⟩
  · intro pl found there unforced
    rw [Store.thunk?_update] at there
    split at there
    · obtain ⟨_, _, rfl⟩ := Option.map_eq_some_iff.mp there
      simp_all
    · exact fits.code there unforced
  · intro pl found fst where_ there forced recorded
    by_cases same : a = pl
    · subst same
      rw [Store.thunk?_update, if_pos rfl, held] at there
      cases there
      cases src.symm.trans recorded
      have again := echoes.grow grows (Nat.le_refl bound)
      simpa [Ledger.close, Thunk.value] using again
    · rw [Store.thunk?_update, if_neg same] at there
      have again := (fits.echoes there forced recorded).grow grows (Nat.le_refl _)
      simpa [Ledger.close, Ne.symm same] using again
  · intro pl kid mem
    by_cases same : pl = a
    · simp_all [Ledger.close, Store.phase?]
    · simp only [Ledger.close, Function.update_of_ne same] at mem
      obtain ⟨own, within, forced⟩ := fits.owned mem
      exact ⟨own, by simpa using within, grows.forced forced⟩
  · intro pl
    by_cases same : pl = a
    · subst same
      simpa [Ledger.close] using dst
    · simpa [Ledger.close, Function.update_of_ne same] using fits.distinct pl

end

end Ledger.Fits

/-- The thunk in whose evaluation a thunk is added, by the frames that are
below those of the evaluation. -/
def holder : List Frame → Option Address
  | .update a :: _ => some a
  | _ => none

/-- Frames that update no thunk. -/
def Plain (fs : List Frame) : Prop := ∀ a, .update a ∉ fs

variable {fs : List Frame}

theorem Plain.tail (plain : Plain (fr :: fs)) : Plain fs :=
  fun a mem => plain a (List.mem_cons_of_mem fr mem)

theorem Plain.cons (plain : Plain fs) (o : ∀ a, fr ≠ .update a) : Plain (fr :: fs) := by
  intro a mem
  rcases List.mem_cons.mp mem with same | later
  · grind
  · exact plain a later

/-- What a move is in the evaluation of a thunk, whose frames end where the
others begin. -/
inductive Advance (host : Host) (lk : Store) (lg : Ledger) (part : Part)
    (rest : List Frame) (bef : Configuration) : Configuration → Prop where
  /-- It is part of the evaluation. -/
  | own {o kids bound next aft} (echo : Echo host o aft.store bound kids part next)
      (grown : bef.store.Grows aft.store)
      (grows : lg.Grows bef.store o aft.store)
      (fits : o.Fits host lk aft.store)
      (sameChildren : o.children = lg.children)
      (aim : aft.aim = next.aim) (k : aft.stack = next.frames ++ rest)
      (plain : Plain next.frames)
      (new : ∀ kid ∈ kids, bef.store.size ≤ kid ∧ kid < aft.store.size ∧
        o.owner kid = holder rest)
      (dst : kids.Nodup) :
      Advance host lk lg part rest bef aft
  /-- The evaluation of another thunk begins. -/
  | enter {a th fs} (asks : Asks bef.store part a fs)
      (held : bef.store.thunk? a = some th) (unforced : th.phase = .unforced) :
      Advance host lk lg part rest bef
        ⟨th.code?, bef.value, .update a :: (fs ++ rest), bef.store.update a Thunk.begin⟩
  /-- The evaluation ends. -/
  | memoize {a below} (noFocus : bef.focus = none) (noFrames : part.frames = [])
      (top : rest = .update a :: below) :
      Advance host lk lg part rest bef
        ⟨none, bef.value, below, bef.store.update a (·.memoize bef.value)⟩

theorem Part.frames_cons {rest k : List Frame}
    (bottom : rest = [] ∨ ∃ a below, rest = .update a :: below) (o : ∀ a, fr ≠ .update a)
    (split : fr :: k = fs ++ rest) : ∃ inn, fs = fr :: inn ∧ k = inn ++ rest := by
  cases fs with
  | nil => grind
  | cons fst inn => simp_all

theorem Asks.plain (asks : Asks s part a fs)
    (plain : Plain part.frames) : Plain fs := by
  cases asks with
  | name found => exact plain
  | primitive => exact plain.tail.cons (by simp)

section Move

variable {host : Host} {lk : Store} {lg : Ledger} {aim : Aim} {rest : List Frame}

theorem Advance.still {next : Part} {bef aft : Configuration}
    (echo : Echo host lg aft.store bound [] part next) (grown : bef.store.Grows aft.store)
    (grows : lg.Grows bef.store lg aft.store) (fits : lg.Fits host lk aft.store)
    (aim : aft.aim = next.aim) (k : aft.stack = next.frames ++ rest) (plain : Plain next.frames) :
    Advance host lk lg part rest bef aft :=
  .own echo grown grows fits rfl aim k plain (by simp) List.nodup_nil

theorem Advance.allocate {f arg : Term} {base : Store} {added : Thunk}
    (fits : lg.Fits host lk base) (grown : s.Grows (base.alloc added).2)
    (grows : lg.Grows s lg base) (le : s.size ≤ base.size) (plain : Plain fs)
    (recorded : (∃ t env x, added = .suspended t env x ∧ src = some (t, env)) ∨
      ∃ v x, added = .evaluated v x ∧ src = none)
    (unbound : ∀ x, arg = .var x → s.find x env = none)
    (delayed : (lg.add base.size src (holder rest)).Delayed (base.alloc added).2
      base.size arg env) :
    Advance host lk lg ⟨.term (.app f arg) env, fs⟩ rest
      ⟨some (.app f arg, env), v, fs ++ rest, s⟩
      ⟨some (f, env), v, .argument (some base.size) :: (fs ++ rest), (base.alloc added).2⟩ := by
  have whole := grows.trans (lg.grows_add base added src (holder rest))
  have echo : Echo host (lg.add base.size src (holder rest)) (base.alloc added).2 0
      [base.size] ⟨.term (.app f arg) env, fs⟩ ⟨.term f env, .argument (some base.size) :: fs⟩ := by
    refine .postpone (fun x same => ?_) delayed
    rw [Store.find_congr whole.tables]
    exact unbound x same
  refine .own echo grown whole (fits.add recorded _) rfl rfl rfl (plain.cons (by simp)) ?_
    (List.nodup_singleton _)
  simp_all [Ledger.add]

theorem Advance.postpone {f arg : Term} (fits : lg.Fits host lk s) (plain : Plain fs) :
    Advance host lk lg ⟨.term (.app f arg) env, fs⟩ rest
      ⟨some (.app f arg, env), v, fs ++ rest, s⟩
      ⟨some (f, env), v,
        .argument (some (s.delay arg env).1) :: (fs ++ rest), (s.delay arg env).2⟩ := by
  have grown := s.grows_delay arg env
  rcases s.delay_cases arg env with ⟨x, a, rfl, found, delayed⟩ |
    ⟨unbound, notAbstraction, delayed⟩ | ⟨p, b, rfl, delayed⟩
  · rw [delayed]
    have echo : Echo host lg s 0 [] ⟨.term (.app f (.var x)) env, fs⟩
        ⟨.term f env, .argument (some a) :: fs⟩ := .pass found
    exact .still echo (.refl s) (.refl _ _) fits rfl rfl (plain.cons (by simp))
  · rw [delayed] at grown ⊢
    refine .allocate fits grown (.refl _ _) (Nat.le_refl _) plain
      (.inl ⟨arg, env, none, rfl, rfl⟩) unbound ?_
    exact .suspended ((Store.thunk?_alloc _ _ _).trans (if_pos rfl)) rfl notAbstraction
      (by simp [Ledger.add])
  · rw [delayed] at grown ⊢
    refine .allocate (fits.build _) grown (lg.grows_build s _) (Nat.le_refl _) plain
      (.inr ⟨_, none, rfl, rfl⟩) (by simp) ?_
    exact .evaluated ((Store.thunk?_alloc _ _ _).trans (if_pos rfl)) rfl rfl rfl

/-- Every move continues an evaluation, ends it, or begins another one. -/
theorem Move.advance {bef aft : Configuration} (move : Move host bef aft)
    (fits : lg.Fits host lk bef.store) (bottom : rest = [] ∨ ∃ a below, rest = .update a :: below)
    (plain : Plain fs) (k : bef.stack = fs ++ rest) :
    Advance host lk lg ⟨bef.aim, fs⟩ rest bef aft := by
  cases move with
  | @reuse x env v _ s a th found held forced =>
    subst k
    have echo : Echo host lg s (lg.rank a + 1) []
        ⟨.term (.var x) env, fs⟩ ⟨.form th.value.form, fs⟩ :=
      .answer (.name found) held forced (Nat.lt_succ_self _)
    exact .still echo (.refl s) (.refl _ _) fits rfl rfl plain
  | @enter x env v _ s a th found held unforced =>
    subst k
    exact .enter (.name found) held unforced
  | @close p b env v _ s =>
    subst k
    have echo : Echo host lg (s.build (.closure p b env)).2 0 [] ⟨.term (.lam p b) env, fs⟩
        ⟨.form (.closure p b env), fs⟩ := .close
    exact .still echo (s.grows_build (.closure p b env)) (lg.grows_build s (.closure p b env))
      (fits.build (.closure p b env)) rfl rfl plain
  | postpone =>
    subst k
    exact .postpone fits plain
  | @memoize v a below s =>
    cases fs with
    | nil => exact .memoize rfl rfl k.symm
    | cons fr fs =>
      cases k
      exact absurd List.mem_cons_self (plain a)
  | @bind v arg tail s p b env closure =>
    obtain ⟨inn, rfl, rfl⟩ := Part.frames_cons bottom (by simp) k
    have echo : Echo host lg s 0 [] ⟨.form v.form, .argument arg :: inn⟩
        ⟨.term b (.layer p arg env), inn⟩ := by
      rw [closure]
      exact .bind
    exact .still echo (.refl s) (.refl _ _) fits rfl rfl plain.tail
  | @extend v arg tail s x args neutral =>
    obtain ⟨inn, rfl, rfl⟩ := Part.frames_cons bottom (by simp) k
    have echo : Echo host lg (s.build (.neutral x (args ++ [arg]))).2 0 []
        ⟨.form v.form, .argument arg :: inn⟩ ⟨.form (.neutral x (args ++ [arg])), inn⟩ := by
      rw [neutral]
      exact .extend
    exact .still echo (s.grows_build (.neutral x (args ++ [arg])))
      (lg.grows_build s (.neutral x (args ++ [arg])))
      (fits.build (.neutral x (args ++ [arg]))) rfl rfl plain.tail
  | @supply v a tail s x th prim held forced =>
    obtain ⟨inn, rfl, rfl⟩ := Part.frames_cons bottom (by simp) k
    have echo : Echo host lg s (lg.rank a + 1) [] ⟨.form v.form, .argument (some a) :: inn⟩
        ⟨.form th.value.form, .call x :: inn⟩ := by
      rw [prim]
      exact .answer .primitive held forced (Nat.lt_succ_self _)
    exact .still echo (.refl s) (.refl _ _) fits rfl rfl (plain.tail.cons (by simp))
  | @demand v a tail s x th prim held unforced =>
    obtain ⟨inn, rfl, rfl⟩ := Part.frames_cons bottom (by simp) k
    have asks : Asks s ⟨.form v.form, .argument (some a) :: inn⟩ a (.call x :: inn) := by
      rw [prim]
      exact .primitive
    show Advance host lk lg _ rest ⟨none, v, _, s⟩
      ⟨th.code?, v, .update a :: ((.call x :: inn) ++ rest), _⟩
    exact .enter asks held unforced
  | @call v x tail s r computed =>
    obtain ⟨inn, rfl, rfl⟩ := Part.frames_cons bottom (by simp) k
    have echo : Echo host lg s 0 [] ⟨.form v.form, .call x :: inn⟩
        ⟨.form r.form, inn⟩ := .call computed
    exact .still echo (.refl s) (.refl _ _) fits rfl rfl plain.tail

end Move

/-- The evaluations that have begun can be gone through again up to where they
wait for each other.  What is computed for no thunk is not recorded. -/
inductive Ledger.Tracks (host : Host) (lg : Ledger) (s : Store) :
    Part → List Frame → Prop where
  | outside {part} (plain : Plain part.frames) : Tracks host lg s part []
  | inside {part a t env bound kids asking fs rest}
      (plain : Plain part.frames) (within : a < s.size)
      (src : lg.source a = some (t, env))
      (echoes : Echoes host lg s bound kids ⟨.term t env, []⟩ part)
      (owned : ∀ kid ∈ kids, lg.owner kid = some a ∧ kid < s.size)
      (dst : kids.Nodup) (asks : Asks s asking a fs)
      (below : Tracks host lg s asking rest) :
      Tracks host lg s part (.update a :: (fs ++ rest))

variable {a : Address} {th : Thunk} {below : List Frame}

namespace Ledger.Tracks

variable {host : Host} {lk bef aft : Store} {lg o : Ledger}
  {part next : Part} {rest : List Frame}

section

variable (tracks : Tracks host lg bef part rest)

include tracks

theorem plain : Plain part.frames := by
  cases tracks with
  | outside plain => exact plain
  | inside plain => exact plain

theorem bottom : rest = [] ∨ ∃ a below, rest = .update a :: below := by
  cases tracks with
  | outside => exact .inl rfl
  | inside => exact .inr ⟨_, _, rfl⟩

theorem grow (grows : lg.Grows bef o aft) : Tracks host o aft part rest := by
  induction tracks with
  | outside plain => exact .outside plain
  | inside plain within src echoes owned dst asks _ ih =>
    refine .inside plain (grows.lt within) ((grows.source within).trans src)
      (echoes.grow grows (Nat.le_refl _)) ?_ dst (asks.grow grows.tables) ih
    intro kid mem
    obtain ⟨own, bound⟩ := owned kid mem
    exact ⟨(grows.owner bound).trans own, grows.lt bound⟩

theorem advance (grows : lg.Grows bef o aft)
    (echo : Echo host o aft bound kids part next) (plain : Plain next.frames)
    (new : ∀ kid ∈ kids, bef.size ≤ kid ∧ kid < aft.size ∧ o.owner kid = holder rest)
    (dst : kids.Nodup) : Tracks host o aft next rest := by
  cases tracks with
  | outside _ => exact .outside plain
  | @inside _ a t env ely known asking fs rest _ within src echoes owned apart asks below =>
    have fr := echoes.grow grows (Nat.le_max_left ely bound)
    have whole := fr.snoc (echo.grow (.refl _ _) (Nat.le_max_right ely bound))
    refine .inside plain (grows.lt within) ((grows.source within).trans src) whole ?_ ?_
      (asks.grow grows.tables) (below.grow grows)
    · intro kid mem
      rcases List.mem_append.mp mem with old | fresh
      · obtain ⟨own, small⟩ := owned kid old
        exact ⟨(grows.owner small).trans own, grows.lt small⟩
      · obtain ⟨_, small, own⟩ := new kid fresh
        exact ⟨own, small⟩
    · grind

end

theorem enter (fits : lg.Fits host lk bef) (tracks : Tracks host lg bef part rest) {fs : List Frame}
    (asks : Asks bef part a fs) (held : bef.thunk? a = some th) (unforced : th.phase = .unforced) :
    ∃ t env, th.code? = some (t, env) ∧
      Tracks host lg (bef.update a Thunk.begin) ⟨.term t env, []⟩ (.update a :: (fs ++ rest)) := by
  obtain ⟨t, env, ct, src⟩ := fits.code held (by simp [unforced])
  refine ⟨t, env, by simp [Thunk.code?, ct], ?_⟩
  have same := tracks.grow (lg.grows_begin held unforced)
  have nothing : Echoes host lg (bef.update a Thunk.begin) 0 []
      ⟨.term t env, []⟩ ⟨.term t env, []⟩ := .refl _
  exact .inside (by simp [Plain]) (by simpa using Store.thunk?_lt held) src nothing
    (by simp) List.nodup_nil (asks.grow rfl) same

theorem memoize (fits : lg.Fits host lk bef)
    (tracks : Tracks host lg bef ⟨.form v.form, []⟩ (.update a :: below))
    (held : bef.thunk? a = some th) (notForced : th.phase ≠ .forced) :
    ∃ kids bound fs rest, below = fs ++ rest ∧
      (lg.close a kids bound).Fits host lk (bef.update a (·.memoize v)) ∧
      Tracks host (lg.close a kids bound) (bef.update a (·.memoize v)) ⟨.form v.form, fs⟩ rest := by
  generalize whole : Frame.update a :: below = k at tracks
  cases tracks with
  | outside => cases whole
  | @inside _ _ t env bound kids asking fs rest _ within src echoes owned dst asks waiting =>
    cases whole
    have kept := fits.memoize held notForced src echoes owned dst
    have grows := lg.grows_close held notForced v kids bound
    refine ⟨kids, bound, fs, rest, rfl, kept, ?_⟩
    have echo : Echo host (lg.close a kids bound) (bef.update a (·.memoize v)) (bound + 1) [] asking
        ⟨.form v.form, fs⟩ := by
      have there : (bef.update a (·.memoize v)).thunk? a = some (th.memoize v) := by simp [held]
      refine .answer (asks.grow grows.tables) there rfl ?_
      simp [close]
    exact waiting.advance grows echo (asks.plain waiting.plain) (by simp) List.nodup_nil

end Ledger.Tracks

/-- A ledger that is true of the store of a configuration, and under which all
begun evaluations can be gone through again. -/
structure Recorded (host : Host) (lk : Store) (lg : Ledger)
    (c : Configuration) : Prop where
  fits : lg.Fits host lk c.store
  marked : c.Marked
  tracks : ∃ fs rest, c.stack = fs ++ rest ∧
    lg.Tracks host c.store ⟨c.aim, fs⟩ rest

namespace Recorded

variable {host : Host} {lk : Store} {lg : Ledger} {bef aft : Configuration}

theorem start (fits : lg.Fits host lk c.store) (settled : c.store.Settled)
    (plain : Plain c.stack) : Recorded host lk lg c :=
  ⟨fits, (Underway.start settled plain).marked, c.stack, [], by simp, .outside plain⟩

section

variable (recorded : Recorded host lk lg bef)

include recorded

theorem forcing (top : bef.stack = .update a :: below) :
    ∃ th, bef.store.thunk? a = some th ∧ th.phase = .forcing := by
  have begun : bef.store.phase? a = some .forcing := recorded.marked.forcing_iff.mpr (by simp [top])
  exact Option.map_eq_some_iff.mp begun

theorem enter {fs rest inn : List Frame} (tracks : lg.Tracks host bef.store ⟨bef.aim, fs⟩ rest)
    (asks : Asks bef.store ⟨bef.aim, fs⟩ a inn) (held : bef.store.thunk? a = some th)
    (unforced : th.phase = .unforced) (marked : aft.Marked) (focus : aft.focus = th.code?)
    (k : aft.stack = .update a :: (inn ++ rest)) (s : aft.store = bef.store.update a Thunk.begin) :
    Recorded host lk lg aft := by
  obtain ⟨t, env, code, inside⟩ := tracks.enter recorded.fits asks held unforced
  have aim : aft.aim = .term t env := by simp [Configuration.aim, focus, code]
  refine ⟨?_, marked, [], _, k, ?_⟩
  · rw [s]
    exact recorded.fits.begin held unforced
  simp_all

theorem memoize (noFocus : bef.focus = none)
    (tracks : lg.Tracks host bef.store ⟨bef.aim, []⟩ (.update a :: below))
    (top : bef.stack = .update a :: below) (marked : aft.Marked) (focus : aft.focus = none)
    (v : aft.value = bef.value) (k : aft.stack = below)
    (s : aft.store = bef.store.update a (·.memoize bef.value)) :
    ∃ kids bound, Recorded host lk (lg.close a kids bound) aft := by
  obtain ⟨th, held, forcing⟩ := recorded.forcing top
  have aim : bef.aim = .form bef.value.form := by simp [Configuration.aim, noFocus]
  have aimAfter : aft.aim = .form bef.value.form := by
    simp [Configuration.aim, focus, v]
  rw [aim] at tracks
  obtain ⟨kids, bound, fs, rest, split, fits, waiting⟩ :=
    tracks.memoize recorded.fits held (by simp [forcing])
  refine ⟨kids, bound, by rwa [s], marked, fs, rest, k.trans split, ?_⟩
  rwa [s, aimAfter]

theorem move (move : Move host bef aft) : ∃ o, Recorded host lk o aft := by
  obtain ⟨fs, rest, k, tracks⟩ := recorded.tracks
  have marked := recorded.marked.move move
  cases move.advance recorded.fits tracks.bottom tracks.plain k with
  | @own o kids bound next _ echo _ grows fits _ aim split plain new dst =>
    refine ⟨o, fits, marked, next.frames, rest, split, ?_⟩
    rw [aim]
    exact tracks.advance grows echo plain new dst
  | enter asks held unforced =>
    exact ⟨lg, recorded.enter tracks asks held unforced marked rfl rfl rfl⟩
  | memoize noFocus noFrames top =>
    cases noFrames
    cases top
    obtain ⟨kids, bound, aft⟩ := recorded.memoize noFocus tracks k marked rfl rfl rfl rfl
    exact ⟨_, aft⟩

theorem moves {k : Nat} (moves : Moves host k bef aft) : ∃ o, Recorded host lk o aft := by
  induction moves generalizing lg with
  | refl => exact ⟨lg, recorded⟩
  | step fst _ ih =>
    obtain ⟨o, next⟩ := recorded.move fst
    exact ih next

end

end Recorded

/-- Whatever is asked of an engine, its store can be recorded. -/
theorem kept_recorded (lk : Store) (cfg : Settings) (same : cfg.host = host) :
    Kept cfg (· = .outOfFuel) fun bef aft => bef.Settled →
      ∀ lg, Ledger.Fits host lk lg bef → aft.Settled ∧ ∃ o, Ledger.Fits host lk o aft := by
  subst same
  have settles := kept_settles cfg
  constructor
  · grind
  · grind
  · intro s v settled lg fits
    exact ⟨(settles.alloc s v settled fits.writable).1, _, fits.add (.inr ⟨v, none, rfl, rfl⟩) none⟩
  · intro s form settled lg fits
    exact ⟨(settles.build s form settled fits.writable).1, lg, fits.build form⟩
  · intro st0 k n taken st r e plain moves ran ended settled lg fits
    refine ⟨(settles.run plain moves ran ended settled fits.writable).1, ?_⟩
    have recorded := Recorded.start fits settled plain
    obtain ⟨more, last, further, _, ending⟩ := run_spec cfg n taken st
    obtain ⟨o, recorded⟩ := recorded.moves (moves.trans further)
    refine ⟨o, ?_⟩
    have fits : o.Fits cfg.host lk last.engine.store := recorded.fits
    rcases ending with ⟨_, exh⟩ | ⟨_, _, ending⟩
    · simp_all
    · have aft : e = (run cfg n taken st).2 := by rw [ran]
      rw [aft]
      generalize run cfg n taken st = oc at ending
      cases ending with
      | returned => exact fits
      | limited => exact Ledger.Fits.abandon (by exact fits) _
      | failed within raise sameEngine samePending =>
        exact Ledger.Fits.abandon (by rw [sameEngine]; exact fits) _

/-- The stores that an engine with one host can come to hold. -/
abbrev ReachedBy (host : Host) : Store → Store → Prop := ReachedUnder fun cfg => cfg.host = host

/-- Whatever was asked of an engine, its store can be recorded. -/
theorem ReachedBy.recorded {lk : Store} (wlk : lk.Linked)
    (reached : ReachedBy host lk s) : s.Settled ∧ ∃ lg, Ledger.Fits host lk lg s := by
  exact Kept.reached (kept_recorded lk ⟨host, none⟩ rfl).refl
    (fun cfg same => kept_recorded lk cfg same) reached wlk.settled _ (Ledger.Fits.start wlk)

end CallByNeed
