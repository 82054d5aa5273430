import CallByNeed.Proofs.Decoding
import CallByNeed.Proofs.FixedPoints
import CallByNeed.Proofs.Library

/-!
# Calculating with the bundled library

A thunk of a numeral stands for a Church numeral, whether it has been evaluated
or not.  So the functions of the library, applied to such thunks, return numerals
of their results, which are found by counting: reduction in some order says what
the result is, and then the machine finds it (`Resting.calculates`).

The test for zero returns a truth value.  That it is the one of the library,
names included, is followed step by step.
-/

variable {chosen : Name} {s : Store} {f : Value}

namespace CallByNeed

/-! ### Numerals -/

/-- A thunk of the numeral of a number, evaluated or not. -/
def Store.HoldsNumeral (s : Store) (a : Address) (k : Nat) : Prop :=
  ∃ sc zero p b env, sc ≠ zero ∧ numeral k sc zero = .lam p b ∧ s.Abstracts a p b env

variable {lk : Store} {rl : Roles} {cfg : Settings} {e : Engine} {k : Nat} {a : Address}
  {x : Name} {scope env : Env}

theorem Store.HoldsNumeral.abstracts (holds : s.HoldsNumeral a k) :
    ∃ sc zero env, sc ≠ zero ∧
      s.Abstracts a sc (.lam zero (Nat.repeat (Term.app (.var sc)) k (.var zero))) env := by
  obtain ⟨sc, zero, p, b, env, apart, same, abstracts⟩ := holds
  cases same
  grind

theorem Sound.church {mn : Nameless} (sound : Sound lk rl s)
    (means : rl.meaning? a = some mn) (holds : s.HoldsNumeral a k) :
    Church lk.definitions k mn := by
  obtain ⟨sc, zero, env, apart, th, held, abstracts⟩ := holds.abstracts
  obtain ⟨role, given, rfl⟩ := Option.map_eq_some_iff.mp means
  obtain ⟨o, there, fits⟩ := sound.holds given
  cases held.symm.trans there
  have closed : (role.meaning a).ClosedAt 0 := sound.meaning_closed means
  have church : ∀ mn : Name → Nameless,
      Church lk.definitions k ((numeral k sc zero).nameless mn []) := by
    grind [nameless_numeral, church_numeral]
  cases fits with
  | declared notForced ct gives defined =>
    cases abstracts with
    | value forced => exact absurd forced notForced
    | code _ code =>
      cases ct.symm.trans code
      exact .of_reduces closed (.single (.unfold defined)) (church _)
  | delayed notForced ct gives _ =>
    cases abstracts with
    | value forced => exact absurd forced notForced
    | code _ code =>
      cases ct.symm.trans code
      exact church _
  | kept forced ct sts denotes =>
    cases abstracts with
    | code notForced => exact absurd forced notForced
    | value _ form =>
      rw [Thunk.value, ct] at form
      cases denotes with
      | neutral o => simp [form] at o
      | closure same gives =>
        cases form.symm.trans same
        exact .of_reduces closed sts.reduces (church _)

/-! ### Functions of numbers -/

/-- A name is evaluated to a function.  The function, applied to thunks, returns a value from
which a number is found. -/
def Calculates (cfg : Settings) (e : Engine) (env : Env) (x : Name)
    (args : List Address) (r : Nat) : Prop :=
  ∃ (few more most : Nat) (f v : Value) (fst snd last : Engine),
    evaluate cfg few (.var x) env e = (.ok f, fst) ∧
    apply cfg more f (args.map some) fst = (.ok v, snd) ∧
    number cfg most v snd = (.ok (some (.int r)), last)

theorem Resting.calculates (wlk : lk.Linked) (unb : ∀ sts, cfg.limit.exceeded sts = false)
    (succeeds : cfg.host.Succeeds) (resting : Resting lk rl e.store)
    (found : lk.find x (.root num) = some a) {args : List Address}
    (given : List.Forall₂ (fun arg mn => rl.meaning? arg = some mn) args mns)
    (within : ∀ mn ∈ mns, mn.Within lk [])
    (church : Church lk.definitions k ((Nameless.free a).apply mns)) :
    Calculates cfg e (.root num) x args k := by
  have undefined : ∀ more, lk.definitions (lk.size + more) = none := by
    intro more
    rw [← Option.not_isSome_iff_eq_none, wlk.definitions_isSome]
    simp
  have apart : lk.size + 0 ≠ lk.size + 1 := by simp
  have iterates : Iterates lk.definitions (lk.size + 0) (lk.size + 1) k
      ((Nameless.free a).apply (mns ++ [.free (lk.size + 0), .free (lk.size + 1)])) := by
    rw [Nameless.apply_append, iterates_iff wlk.selfContained]
    exact church.iterates trivial trivial
  obtain ⟨sts, f, reaches, ends, present, iterates⟩ := iterates.front (undefined 0) (undefined 1)
  have reachesName : HeadSteps lk.definitions sts
      ((Term.var x).nameless (lk.globals (.root num)) []) f := by
    rw [Term.nameless_var, Store.globals_of_find found]
    exact reaches
  obtain ⟨few, v, fst, mid, evd, grow, rests, denotes⟩ :=
    resting.evaluates wlk unb (resting.sound.gives_root wlk num) reachesName ends present
  rw [Nameless.apply_append] at iterates
  obtain ⟨_, r, reachesResult, endsResult, presentResult, iteratesResult⟩ :=
    iterates.front (undefined 0) (undefined 1)
  have givenLater : List.Forall₂ (fun arg mn => mid.meaning? arg = some mn)
      args mns := given.imp fun _ _ means => grow.meaning? means
  obtain ⟨more, ans, snd, last, applied, _, restsLater, denotesResult⟩ :=
    rests.applies denotes givenLater wlk unb reachesResult endsResult presentResult
  have withinName : (Nameless.free a).Within lk [] := by
    have inside := wlk.source_within num (.var x)
    rwa [Store.source, Term.nameless_var, Store.globals_of_find found] at inside
  have withinFunction : f.Within lk [] := .steps wlk withinName reaches
  have withinResult : r.Within lk [] := .steps wlk (withinFunction.apply within) reachesResult
  obtain ⟨most, fi, counted⟩ := (restsLater.number_iff wlk succeeds denotesResult
    withinResult (undefined 0) (undefined 1) apart unb k).mpr iteratesResult
  exact ⟨few, more, most, v, ans, fst, snd, fi, evd, applied, counted⟩

/-! ### The test for zero -/

section Moves

variable {host : Host} {v : Value} {stk : List Frame} {p : Name} {b : Term}

/-- An abstraction with two parameters takes two arguments. -/
theorem Store.Offers.takes {fst snd : Option Address} {o : Name}
    (offers : s.Offers a p (.lam o b) env) (found : s.find x scope = some a) (host : Host)
    (v : Value) (stk : List Frame) :
    ∃ k last aft,
      Moves host k ⟨some (.var x, scope), v, .argument fst :: .argument snd :: stk, s⟩
        ⟨some (b, .layer o snd (.layer p fst env)), last, stk, aft⟩ ∧
      s.Upholds aft ∧ ∀ o, o ≠ a → aft.thunk? o = s.thunk? o := by
  obtain ⟨k, r, aft, fetched, form, upholds, os⟩ := offers.fetch found host v _
  refine ⟨_, _, _, fetched.trans (.step (.bind form) (.step .close (.step (.bind rfl) (.refl _)))),
    upholds.trans (.build aft _), ?_⟩
  simp_all

end Moves

/-- What the test for zero is applied in: a numeral, and the names that it uses. -/
structure Testing (s : Store) (env : Env) (num yes no constant : Address)
    (sc zero : Name) (k : Nat) : Prop where
  apart : sc ≠ zero
  offersNumber : ∃ o, s.Offers num sc
    (.lam zero (Nat.repeat (Term.app (.var sc)) k (.var zero))) o
  offersYes : ∃ o, s.Offers yes "t" (.lam "f" (.var "t")) o
  offersNo : ∃ o, s.Offers no "t" (.lam "f" (.var "f")) o
  offersConstant : ∃ o, s.Offers constant "x" (.lam "y" (.var "x")) o
  findYes : s.find "True" env = some yes
  findNo : s.find "False" env = some no
  findConstant : s.find "K" env = some constant

namespace Testing

variable {aft : Store} {num yes no constant : Address} {sc zero : Name}

theorem later (testing : Testing s env num yes no constant sc zero k) (upholds : s.Upholds aft) :
    Testing aft env num yes no constant sc zero k where
  apart := testing.apart
  offersNumber := testing.offersNumber.imp fun _ => upholds.offers
  offersYes := testing.offersYes.imp fun _ => upholds.offers
  offersNo := testing.offersNo.imp fun _ => upholds.offers
  offersConstant := testing.offersConstant.imp fun _ => upholds.offers
  findYes := (Store.find_congr upholds.tables _ _).trans testing.findYes
  findNo := (Store.find_congr upholds.tables _ _).trans testing.findNo
  findConstant := (Store.find_congr upholds.tables _ _).trans testing.findConstant

variable (testing : Testing s env num yes no constant sc zero k) (host : Host)

include testing

/-- The numeral is applied to a thunk that holds `K False`, and to `True`. -/
theorem opens
    (form : f.form = .closure "n"
      (.app (.app (.var "n") (.app (.var "K") (.var "False"))) (.var "True")) env) :
    ∃ taken last aft o,
      Moves host taken ⟨none, f, [.argument (some num)], s⟩
        ⟨some (Nat.repeat (Term.app (.var sc)) k (.var zero),
          .layer zero (some yes) (.layer sc (some s.size) o)), last, [], aft⟩ ∧
      s.Upholds aft ∧
      aft.thunk? s.size = some (.suspended (.app (.var "K") (.var "False"))
        (.layer "n" (some num) env) none) := by
  obtain ⟨o, offers⟩ := testing.offersNumber
  let arg : Thunk :=
    .suspended (.app (.var "K") (.var "False")) (.layer "n" (some num) env) none
  have added := Store.Upholds.alloc s arg
  have found : s.find "True" (.layer "n" (some num) env) = some yes := by
    simp [Store.find, testing.findYes]
  have finds : (s.alloc arg).2.find "n" (.layer "n" (some num) env) = some num := by
    simp [Store.find]
  obtain ⟨taken, last, aft, moves, upholds, os⟩ := (added.offers offers).takes finds host f []
  have apart : s.size ≠ num := Nat.ne_of_gt offers.lt
  refine ⟨_, last, aft, o, .step (.bind form) (.step (.pass found) (.step .postpone moves)),
    added.trans upholds, ?_⟩
  rw [os s.size apart]
  simp [arg]

/-- The value of `K False`, which a new thunk waits for. -/
theorem keeps (upholds : s.Upholds aft) (v : Value) (stk : List Frame) :
    ∃ taken r last o,
      Moves host taken
        ⟨some (.app (.var "K") (.var "False"), .layer "n" (some num) env), v,
          .update s.size :: stk, aft⟩ ⟨none, r, stk, last⟩ ∧
      r.form = .closure "y" (.var "x") (.layer "x" (some no) o) ∧
      s.Upholds last := by
  obtain ⟨o, offers⟩ := testing.offersConstant
  have findsNo : aft.find "False" (.layer "n" (some num) env) = some no := by
    rw [Store.find_congr upholds.tables]
    simp [Store.find, testing.findNo]
  have findsConstant : aft.find "K" (.layer "n" (some num) env) = some constant := by
    rw [Store.find_congr upholds.tables]
    simp [Store.find, testing.findConstant]
  obtain ⟨_, closure, fetched, moves, form, upheld, _⟩ :=
    (upholds.offers offers).fetch findsConstant host v
      (.argument (some no) :: .update s.size :: stk)
  exact ⟨_, _, _, o, .step (.pass findsNo) (moves.trans
    (.step (.bind form) (.step .close (.step .memoize (.refl _))))), rfl,
    ((upholds.trans upheld).trans (.build fetched _)).update (Nat.le_refl _) _⟩

/-- A thunk that holds `K False` is applied to anything, and returns `False`. -/
theorem chooses (upholds : s.Upholds aft)
    (held : aft.thunk? s.size = some (.suspended (.app (.var "K") (.var "False"))
      (.layer "n" (some num) env) none)) (found : aft.find sc scope = some s.size)
    (v : Value) (arg : Term) :
    ∃ taken r last o,
      Moves host taken ⟨some (.app (.var sc) arg, scope), v, [], aft⟩ ⟨none, r, [], last⟩ ∧
      r.form = .closure "t" (.lam "f" (.var "f")) o := by
  obtain ⟨o, offers⟩ := testing.offersNo
  have postpone : Move host ⟨some (.app (.var sc) arg, scope), v, [], aft⟩ _ := .postpone
  have delayed := upholds.trans (.delay aft arg scope)
  have there := Store.thunk?_delay held arg scope
  have finds : (aft.delay arg scope).2.find sc scope = some s.size := by
    rwa [Store.find_congr (Store.tables_delay ..)]
  obtain ⟨_, r, last, inn, moves, form, upheld⟩ := testing.keeps host
    (delayed.update (Nat.le_refl _) Thunk.begin) v [.argument (some (aft.delay arg scope).1)]
  have foundNo : last.find "x" (.layer "y" (some (aft.delay arg scope).1)
      (.layer "x" (some no) inn)) = some no := by
    simp [Store.find]
  obtain ⟨_, ans, fi, fetched, same, _, _⟩ := (upheld.offers offers).fetch foundNo host r []
  exact ⟨_, ans, fi, o, .step postpone (.step (.enter finds there rfl) (moves.trans
    (.step (.bind form) fetched))), same⟩

/-- The test for zero returns a truth value, with the names of its parameters. -/
theorem returns
    (form : f.form = .closure "n"
      (.app (.app (.var "n") (.app (.var "K") (.var "False"))) (.var "True")) env) :
    ∃ taken r last o,
      Moves host taken ⟨none, f, [.argument (some num)], s⟩ ⟨none, r, [], last⟩ ∧
      r.form = .closure "t" (.lam "f" (.var (if k = 0 then "t" else "f"))) o := by
  obtain ⟨_, v, aft, scope, opened, upholds, held⟩ := testing.opens host form
  cases k with
  | zero =>
    obtain ⟨o, offers⟩ := testing.offersYes
    have found : aft.find zero (.layer zero (some yes)
        (.layer sc (some s.size) scope)) = some yes := by
      simp [Store.find]
    obtain ⟨_, r, last, moves, same, _, _⟩ := (upholds.offers offers).fetch found host v []
    exact ⟨_, r, last, o, opened.trans moves, same⟩
  | succ k =>
    have found : aft.find sc (.layer zero (some yes)
        (.layer sc (some s.size) scope)) = some s.size := by
      simp [Store.find, testing.apart.symm]
    obtain ⟨_, r, last, o, moves, same⟩ := testing.chooses host upholds held found v _
    exact ⟨_, r, last, o, opened.trans moves, same⟩

end Testing

/-- A term has a value that is read back as a term. -/
def Term.ReadsAs (cfg : Settings) (e : Engine) (env : Env) (t r : Term) : Prop :=
  ∃ (few more : Nat) (v : Value) (mid last : Engine),
    evaluate cfg few t env e = (.ok v, mid) ∧ normalize cfg more v mid = (.ok r, last)

/-- A name is evaluated to a function that, applied to thunks, returns a value that is read back
as a term. -/
def CallReads (cfg : Settings) (e : Engine) (env : Env) (x : Name)
    (args : List Address) (t : Term) : Prop :=
  ∃ (n : Nat) (f : Value) (mid : Engine),
    evaluate cfg n (.var x) env e = (.ok f, mid) ∧ f.AppliedReads cfg mid (args.map some) t

section Requests

variable (unb : ∀ sts, cfg.limit.exceeded sts = false)

include unb

/-- A name that stands for an abstraction is evaluated to its closure. -/
theorem Store.Offers.evaluates (offers : e.store.Offers a p b env)
    (found : e.store.find x scope = some a) :
    ∃ n v aft, evaluate cfg n (.var x) scope e = (.ok v, aft) ∧
      v.form = .closure p b env ∧ e.store.Upholds aft.store := by
  obtain ⟨_, v, s, moves, form, upholds, _⟩ := offers.fetch found cfg.host Value.absent []
  obtain ⟨aft, ran, rfl, _⟩ := run_of_moves_returned
    ⟨some (.var x, scope), Value.absent, [], e⟩ moves (unb _) (Nat.lt_succ_self _)
  exact ⟨_, v, aft, ran, form, upholds⟩

/-- A closure of `(t, f) => t` or `(t, f) => f` is read back as it is written. -/
theorem normalizes_truth
    (form : v.form = .closure "t" (.lam "f" (.var chosen)) env)
    (either : chosen = "t" ∨ chosen = "f") (e : Engine) :
    ∃ n aft, normalize cfg n v e = (.ok (.lam "t" (.lam "f" (.var chosen))), aft) := by
  have closed : (Term.lam "t" (.lam "f" (.var chosen))).freeNames = [] := by
    rcases either with rfl | rfl <;> decide
  have unshadowed : (Term.lam "t" (.lam "f" (.var chosen))).isUnshadowed [] := by rfl
  have shown : Presents e.store env (.lam "t" (.lam "f" (.var chosen))) v.form := form
  obtain ⟨need, aft, normalizes⟩ := Term.normalizes_of_closed closed rfl unshadowed unb shown
  exact ⟨need, aft, normalizes need (Nat.le_refl need)⟩

theorem Store.Offers.reads_truth
    (offers : e.store.Offers a "t" (.lam "f" (.var chosen)) env)
    (found : e.store.find x scope = some a) (either : chosen = "t" ∨ chosen = "f") :
    (Term.var x).ReadsAs cfg e scope (.lam "t" (.lam "f" (.var chosen))) := by
  obtain ⟨few, v, mid, evd, form, _⟩ := offers.evaluates unb found
  obtain ⟨more, last, read⟩ := normalizes_truth unb form either mid
  exact ⟨few, more, v, mid, last, evd, read⟩

end Requests

section Library

variable {held : Holdings} {arg : Address}

theorem Library.testing (lib : Library lk env) (resting : Resting lk rl e.store)
    (obtained : Obtained lk e.store held) (holds : e.store.HoldsNumeral arg k) :
    ∃ sc zero, Testing e.store env arg lib.names.yes lib.names.no lib.names.constant sc zero k := by
  obtain ⟨sc, zero, o, apart, abstracts⟩ := holds.abstracts
  refine ⟨sc, zero, apart, ⟨o, resting.settled.offers abstracts⟩,
    lib.yes_abstracts.imp fun _ yes => resting.settled.offers (obtained.abstracts yes),
    lib.no_abstracts.imp fun _ no => resting.settled.offers (obtained.abstracts no),
    lib.constant_abstracts.imp fun _ constant =>
      resting.settled.offers (obtained.abstracts constant), ?_, ?_, ?_⟩
  · rw [resting.sound.find, lib.yes]
  · rw [resting.sound.find, lib.no]
  · rw [resting.sound.find, lib.constant]

/-- The test for zero gives the truth value of the library. -/
theorem Library.isZero_reads (lib : Library lk env)
    (unb : ∀ sts, cfg.limit.exceeded sts = false)
    (resting : Resting lk rl e.store) (obtained : Obtained lk e.store held)
    (holds : e.store.HoldsNumeral arg k) :
    ∃ t, CallReads cfg e env "Zero?" [arg] t ∧
      (Term.var (if k = 0 then "True" else "False")).ReadsAs cfg e env t := by
  obtain ⟨_, _, testing⟩ := lib.testing resting obtained holds
  have isZero := resting.settled.offers (obtained.abstracts lib.isZero_abstracts)
  obtain ⟨n, f, mid, evd, form, upholds⟩ :=
    isZero.evaluates unb ((resting.sound.find _ _).trans lib.isZero)
  obtain ⟨_, r, _, _, moves, shape⟩ := (testing.later upholds).returns cfg.host form
  obtain ⟨snd, applied, _, _⟩ := run_of_moves_returned
    ⟨none, f, [.argument (some arg)], mid⟩ moves (unb _) (Nat.lt_succ_self _)
  have either : (if k = 0 then "t" else "f") = "t" ∨
      (if k = 0 then "t" else "f") = "f" := by
    split <;> simp
  obtain ⟨more, last, read⟩ := normalizes_truth unb shape either snd
  refine ⟨_, ⟨n, f, mid, evd, _, more, r, snd, last, applied, read⟩, ?_⟩
  by_cases none : k = 0
  · simp only [none, if_true]
    obtain ⟨_, yes⟩ := testing.offersYes
    exact yes.reads_truth unb testing.findYes (.inl rfl)
  · simp only [none, if_false]
    obtain ⟨_, no⟩ := testing.offersNo
    exact no.reads_truth unb testing.findNo (.inr rfl)

end Library

/-- The bundled arithmetic is right for all numbers.  Wherever the bundled modules are linked,
whatever else is linked and whatever a client did before, the functions of the numbers, applied to
thunks of numerals, return values from which the results are found.  The test for zero is read
back as the term that the truth value is read back as. -/
theorem bundled_arithmetic_correct {srcs : Sources} {ms : Modules} {s : Store}
    (assembled : Assembled srcs ms s) {located : String → String}
    (bundled : srcs.Bundled located) {e : Engine} {held : Holdings}
    (obtained : Obtained s e.store held) {fst snd : Address}
    (firstHeld : fst ∈ held.thunks) (secondHeld : snd ∈ held.thunks) {m n : Nat}
    (firstNumeral : e.store.HoldsNumeral fst m)
    (secondNumeral : e.store.HoldsNumeral snd n) {cfg : Settings}
    (unb : ∀ sts, cfg.limit.exceeded sts = false)
    (succeeds : cfg.host.Succeeds) :
    ∃ nums, ms.find (located "./numbers.lc") = some nums ∧
      Calculates cfg e nums.env "Suc" [fst] (m + 1) ∧
      Calculates cfg e nums.env "Sum" [fst, snd] (m + n) ∧
      Calculates cfg e nums.env "Prod" [fst, snd] (m * n) ∧
      Calculates cfg e nums.env "Pow" [fst, snd] (m ^ n) ∧
      Calculates cfg e nums.env "Pred" [fst] (m - 1) ∧
      Calculates cfg e nums.env "Fact" [fst] m.factorial ∧
      ∃ t, CallReads cfg e nums.env "Zero?" [fst] t ∧
        (Term.var (if m = 0 then "True" else "False")).ReadsAs cfg e nums.env
          t := by
  have wlk := assembled.program.linked
  obtain ⟨nums, found, ⟨lib⟩⟩ := assembled.library bundled
  obtain ⟨rl, resting, sourced⟩ := obtained.sourced wlk
  obtain ⟨l, leftMeans, leftWithin⟩ := sourced.thunks fst firstHeld
  obtain ⟨rt, rightMeans, rightWithin⟩ := sourced.thunks snd secondHeld
  have leftChurch := resting.sound.church leftMeans firstNumeral
  have rightChurch := resting.sound.church rightMeans secondNumeral
  have unary : ∀ {x a r}, s.find x nums.env = some a →
      Church s.definitions r (.app (.free a) l) →
      Calculates cfg e nums.env x [fst] r :=
    fun named church => resting.calculates wlk unb succeeds named
      (.cons leftMeans .nil) (by simpa using leftWithin) church
  have binary : ∀ {x a r}, s.find x nums.env = some a →
      Church s.definitions r (.app (.app (.free a) l) rt) →
      Calculates cfg e nums.env x [fst, snd] r :=
    fun named church => resting.calculates wlk unb succeeds named
      (.cons leftMeans (.cons rightMeans .nil)) (by simpa using ⟨leftWithin, rightWithin⟩) church
  exact ⟨nums, found, unary lib.suc (lib.names.church_suc leftChurch),
    binary lib.sum (lib.names.church_sum leftChurch rightChurch),
    binary lib.prod (lib.names.church_prod leftChurch rightChurch),
    binary lib.pow (lib.names.church_pow leftChurch rightChurch),
    unary lib.pred (lib.names.church_pred leftChurch),
    unary lib.fact (lib.names.church_fact leftChurch),
    lib.isZero_reads unb resting obtained firstNumeral⟩

/-- The bundled modules, with their paths for ids. -/
def librarySources : Sources :=
  [bundledSource id "booleans.lc" booleansStatements,
   bundledSource id "general.lc" generalStatements,
   bundledSource id "pairs.lc" pairsStatements,
   bundledSource id "numbers.lc" numbersStatements]

/-- The order in which the bundled modules are linked. -/
def libraryOrder : List String :=
  ["./booleans.lc", "./general.lc", "./pairs.lc", "./numbers.lc"]

/-- The bundled modules, linked on their own. -/
def libraryLinked : Modules × Store :=
  (linkInOrder librarySources libraryOrder [] [] .empty).toOption.getD ([], .empty)

theorem resolve_librarySources :
    resolve librarySources [] .empty = .ok (libraryLinked.1, libraryLinked.2) := by
  have booleans : importedIds (bundledSource id "booleans.lc" booleansStatements) = [] := rfl
  have general : importedIds (bundledSource id "general.lc" generalStatements) = [] := rfl
  have pairs : importedIds (bundledSource id "pairs.lc" pairsStatements) =
      ["./booleans.lc"] := by decide +kernel
  have nums : importedIds (bundledSource id "numbers.lc" numbersStatements) =
      ["./pairs.lc", "./general.lc", "./booleans.lc"] := by decide +kernel
  have named : ∀ x stms, (bundledSource id x stms).id = "./" ++ x := fun _ _ => rfl
  have ord : dependencyOrder librarySources [] = .ok libraryOrder := by
    simp [dependencyOrder, librarySources, visitAll, visitImports, booleans, general, pairs,
      nums, named, bind, Except.bind, libraryOrder]
  have all : librarySources.unlinked [] = librarySources := rfl
  have lk : (linkInOrder librarySources libraryOrder [] [] .empty).toOption.isSome := by
    decide +kernel
  rw [resolve_eq, all, List.map_nil, ord]
  rfl

def libraryModules : Modules := libraryLinked.1.foldl Modules.insert []

theorem assembled_library : Assembled librarySources libraryModules libraryLinked.2 :=
  .resolve .empty resolve_librarySources

theorem bundled_librarySources : librarySources.Bundled id := by
  intro en mem
  simp only [Files.bundle, List.mem_cons, List.not_mem_nil, or_false] at mem
  rcases mem with rfl | rfl | rfl | rfl
  · exact ⟨_, bundledModule_of_parse parse_bundled.1 id _, by decide +kernel⟩
  · exact ⟨_, bundledModule_of_parse parse_bundled.2.1 id _, by decide +kernel⟩
  · exact ⟨_, bundledModule_of_parse parse_bundled.2.2.1 id _, by decide +kernel⟩
  · exact ⟨_, bundledModule_of_parse parse_bundled.2.2.2 id _, by decide +kernel⟩

/-- The library with a thunk of the numeral of two, and then with one of three. -/
def twoStore : Store :=
  (libraryLinked.2.alloc (.suspended (numeral 2 "s" "z") (.root 0) none)).2

def twoThreeEngine : Engine :=
  .fresh (twoStore.alloc (.suspended (numeral 3 "s" "z") (.root 0) none)).2

theorem obtained_twoThreeEngine :
    Obtained libraryLinked.2 twoThreeEngine.store ⟨[], [twoStore.size, libraryLinked.2.size], []⟩ :=
  .suspended (.suspended .start rfl) rfl

theorem holdsNumeral_twoThreeEngine :
    twoThreeEngine.store.HoldsNumeral libraryLinked.2.size 2 ∧
      twoThreeEngine.store.HoldsNumeral twoStore.size 3 := by
  have written : ∀ k, Thunk.Abstracts "s"
      (.lam "z" (Nat.repeat (Term.app (.var "s")) k (.var "z"))) (.root 0)
      (.suspended (numeral k "s" "z") (.root 0) none) :=
    fun k => .code (by simp [Thunk.suspended]) rfl
  have two : twoStore.thunk? libraryLinked.2.size =
      some (.suspended (numeral 2 "s" "z") (.root 0) none) := by simp [twoStore]
  refine ⟨⟨"s", "z", _, _, _, by decide, rfl, _, ?_, written 2⟩,
    ⟨"s", "z", _, _, _, by decide, rfl, _, ?_, written 3⟩⟩
  · rfl
  rfl

/-- Two to the third power is found to be eight, and the factorial of two to be two; two is not
zero. -/
theorem bundled_arithmetic_correct_two_three :
    Assembled librarySources libraryModules libraryLinked.2 ∧ librarySources.Bundled id ∧
    Obtained libraryLinked.2 twoThreeEngine.store
      ⟨[], [twoStore.size, libraryLinked.2.size], []⟩ ∧
    (twoThreeEngine.store.HoldsNumeral libraryLinked.2.size 2 ∧
      twoThreeEngine.store.HoldsNumeral twoStore.size 3) ∧
    ∃ nums, libraryModules.find "./numbers.lc" = some nums ∧
      Calculates ⟨countingHost, none⟩ twoThreeEngine nums.env "Pow"
        [libraryLinked.2.size, twoStore.size] 8 ∧
      Calculates ⟨countingHost, none⟩ twoThreeEngine nums.env "Fact" [libraryLinked.2.size] 2 ∧
      ∃ t, CallReads ⟨countingHost, none⟩ twoThreeEngine nums.env "Zero?"
          [libraryLinked.2.size] t ∧
        (Term.var "False").ReadsAs ⟨countingHost, none⟩ twoThreeEngine nums.env t := by
  have unb : ∀ sts, (Settings.mk countingHost none).limit.exceeded sts = false := fun _ => rfl
  obtain ⟨two, three⟩ := holdsNumeral_twoThreeEngine
  obtain ⟨nums, found, _, _, _, power, _, factorial, test⟩ :=
    bundled_arithmetic_correct assembled_library bundled_librarySources obtained_twoThreeEngine
      (List.mem_cons_of_mem _ List.mem_cons_self) List.mem_cons_self two three unb
      fun _ => rfl
  simp_all [assembled_library, bundled_librarySources, obtained_twoThreeEngine]

end CallByNeed
