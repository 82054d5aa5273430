import CallByNeed.Files.Discovery
import CallByNeed.Proofs.Abstractions
import CallByNeed.Proofs.Arithmetic
import CallByNeed.Proofs.StagedLinking

/-!
# The bundled library

The texts that come with the program are parsed to modules, which are linked in
any number of stages and together with any others (`Assembled`).  Whatever was
linked besides them, the names of the bundled modules are then defined as they
are written there (`Assembled.library`).
-/

variable {tx : String}

namespace CallByNeed

variable {pd : List Statement}

open Source Files

/-! ### The texts -/

/-- The tokens of lines that are given by their characters. -/
def tokensOf (num : Nat) : List (List Char) → Option (List Token)
  | [] => some []
  | ln :: lns =>
    if (Text.trimLeft ln).head? = some '#' then tokensOf (num + 1) lns
    else
      match scanLine num 0 ln with
      | .error _ => none
      | .ok toks => (tokensOf (num + 1) lns).map (toks ++ ·)

theorem scanLines_of_tokensOf {lns : List (List Char)}
    (scn : tokensOf num lns = some toks) : scanLines num (lns.map String.ofList) = .ok toks := by
  induction lns generalizing num toks with
  | nil =>
    cases scn
    rfl
  | cons ln lns ih =>
    simp only [tokensOf] at scn
    simp only [List.map_cons, scanLines, isComment, String.toList_ofList]
    split at scn
    · next comment =>
        simp only [comment, decide_true, if_true]
        exact ih scn
    · next notComment =>
        simp only [notComment, decide_false]
        cases done : scanLine num 0 ln with
        | error col => simp [done] at scn
        | ok fst =>
          simp only [done, Option.map_eq_some_iff] at scn
          obtain ⟨rest, more, rfl⟩ := scn
          simp [ih more, Except.map]

theorem parseText_statements (spelled : tx.toList = chs)
    (done : ((tokensOf 1 (Text.splitAt '\n' chs)).bind fun toks =>
      (statements (endMark ((Text.splitAt '\n' chs).map String.ofList)) toks).toOption) =
        some pd) : parseText statements tx = .ok pd := by
  subst spelled
  obtain ⟨toks, scn, done⟩ := Option.bind_eq_some_iff.mp done
  have scanning : scan tx = .ok ⟨Text.lines tx, toks⟩ := by
    simp [scan, Text.lines, scanLines_of_tokensOf scn, Except.map]
  cases r : statements (endMark (Text.lines tx)) toks with
  | error objection => grind [Text.lines, Except.toOption]
  | ok list => grind [Text.lines, Except.toOption, parseText, Scanned.final, Except.mapError]

theorem toList_append_of {fst rest : String} {more : List Char} (l : fst.toList = chs)
    (r : rest.toList = more) : (fst ++ rest).toList = chs ++ more := by simp_all

/-- The statements of the module of truth values. -/
def booleansStatements : List Statement :=
  [.binds ⟨"True", .lam "t" (.lam "f" (.var "t")), 3⟩,
   .binds ⟨"False", .lam "t" (.lam "f" (.var "f")), 4⟩,
   .binds ⟨"If", .lam "c" (.lam "t" (.lam "e"
     (.app (.app (.var "c") (.var "t")) (.var "e")))), 6⟩,
   .binds ⟨"Not", .lam "b" (.app (.app (.var "b") (.var "False")) (.var "True")), 7⟩,
   .binds ⟨"And", .lam "a" (.lam "b" (.app (.app (.var "a") (.var "b")) (.var "False"))), 8⟩,
   .binds ⟨"Or", .lam "a" (.lam "b" (.app (.app (.var "a") (.var "True")) (.var "b"))), 9⟩]

/-- The statements of the module of combinators. -/
def generalStatements : List Statement :=
  [.binds ⟨"I", .lam "x" (.var "x"), 3⟩, .binds ⟨"K", .lam "x" (.lam "y" (.var "x")), 4⟩,
   .binds ⟨"S", .lam "f" (.lam "g" (.lam "x"
     (.app (.app (.var "f") (.var "x")) (.app (.var "g") (.var "x"))))), 5⟩,
   .binds ⟨"Compose", .lam "f" (.lam "g" (.lam "x"
     (.app (.var "f") (.app (.var "g") (.var "x"))))), 6⟩,
   .binds ⟨"Flip", .lam "f" (.lam "a" (.lam "b"
     (.app (.app (.var "f") (.var "b")) (.var "a")))), 7⟩,
   .binds ⟨"Y", .lam "f" (.app (.lam "x" (.app (.var "f") (.app (.var "x") (.var "x"))))
     (.lam "x" (.app (.var "f") (.app (.var "x") (.var "x"))))), 11⟩,
   .binds ⟨"Loop", .app (.lam "x" (.app (.var "x") (.var "x")))
     (.lam "x" (.app (.var "x") (.var "x"))), 14⟩]

/-- The statements of the module of pairs. -/
def pairsStatements : List Statement :=
  [.imports ⟨[⟨"True", "True"⟩, ⟨"False", "False"⟩], "./booleans", 2⟩,
   .binds ⟨"Cons", .lam "a" (.lam "b" (.lam "s"
     (.app (.app (.var "s") (.var "a")) (.var "b")))), 4⟩,
   .binds ⟨"Fst", .lam "p" (.app (.var "p") (.var "True")), 5⟩,
   .binds ⟨"Snd", .lam "p" (.app (.var "p") (.var "False")), 6⟩]

/-- The statements of the module of natural numbers. -/
def numbersStatements : List Statement :=
  [.imports ⟨[⟨"Cons", "Cons"⟩, ⟨"Fst", "Fst"⟩, ⟨"Snd", "Snd"⟩], "./pairs", 2⟩,
   .imports ⟨[⟨"K", "K"⟩, ⟨"Y", "Y"⟩], "./general", 3⟩,
   .imports ⟨[⟨"If", "If"⟩, ⟨"True", "True"⟩, ⟨"False", "False"⟩], "./booleans", 4⟩,
   .binds ⟨"Zero", .lam "s" (.lam "z" (.var "z")), 6⟩,
   .binds ⟨"Suc", .lam "n" (.lam "s" (.lam "z" (.app (.var "s")
     (.app (.app (.var "n") (.var "s")) (.var "z"))))), 7⟩,
   .binds ⟨"Zero?", .lam "n" (.app (.app (.var "n") (.app (.var "K") (.var "False")))
     (.var "True")), 8⟩,
   .binds ⟨"Pred", .lam "n" (.app (.var "Fst") (.app (.app (.var "n")
     (.lam "prev" (.app (.app (.var "Cons") (.app (.var "Snd") (.var "prev")))
       (.app (.var "Suc") (.app (.var "Snd") (.var "prev"))))))
     (.app (.app (.var "Cons") (.var "Zero")) (.var "Zero")))), 10⟩,
   .binds ⟨"Sum", .lam "m" (.lam "n" (.app (.app (.var "m") (.var "Suc")) (.var "n"))), 13⟩,
   .binds ⟨"Prod", .lam "m" (.lam "n"
     (.app (.app (.var "m") (.app (.var "Sum") (.var "n"))) (.var "Zero"))), 14⟩,
   .binds ⟨"Pow", .lam "b" (.lam "e" (.app (.app (.var "e") (.app (.var "Prod") (.var "b")))
     (.app (.var "Suc") (.var "Zero")))), 15⟩,
   .binds ⟨"Fact", .app (.var "Y") (.lam "fact" (.lam "n"
     (.app (.app (.app (.var "If") (.app (.var "Zero?") (.var "n")))
         (.app (.var "Suc") (.var "Zero")))
       (.app (.app (.var "Prod") (.var "n"))
         (.app (.var "fact") (.app (.var "Pred") (.var "n"))))))), 17⟩]

/-- The texts of the modules are parsed to these statements. -/
theorem parse_bundled :
    parseText statements booleansText = .ok booleansStatements ∧
    parseText statements generalText = .ok generalStatements ∧
    parseText statements numbersText = .ok numbersStatements ∧
    parseText statements pairsText = .ok pairsStatements := by
  refine ⟨?_, ?_, ?_, ?_⟩
  all_goals
    apply parseText_statements
    · first | unfold booleansText | unfold generalText | unfold numbersText | unfold pairsText
      repeat' (first | with_reducible exact String.toList_ofList | apply toList_append_of)
    · decide +kernel

/-! ### Modules that were linked in stages -/

/-- Modules that were linked into a store, in any number of stages, and the sources that they
were linked from. -/
inductive Assembled : Sources → Modules → Store → Prop where
  | empty : Assembled [] [] .empty
  | addTable {srcs ms s} (ely : Assembled srcs ms s) : Assembled srcs ms (s.addTable []).2
  | resolve {known srcs ms s added aft} (ely : Assembled known ms s)
      (rsd : resolve srcs ms s = .ok (added, aft)) :
      Assembled (known ++ srcs.unlinked ms) (added.foldl Modules.insert ms) aft

theorem Store.links_addTable (s : Store) : s.Links (s.addTable []).2 where
  keeps := id
  fresh new held := by
    rw [show (s.addTable []).2.thunk? _ = s.thunk? _ from rfl, new] at held
    cases held
  tables num _ := s.table_addTable num
  size := by simp [Store.addTable]

namespace Assembled

variable {srcs : Sources} {ms : Modules} {s : Store}

theorem program (assembled : Assembled srcs ms s) : Program ms s := by
  induction assembled with
  | empty => exact .empty
  | addTable _ ih => exact .addTable ih
  | resolve _ rsd ih => exact .resolve ih rsd

/-- Each source is realized by a module, and stays so in later stages. -/
theorem realizes (assembled : Assembled srcs ms s) {id : String} {src : ParsedModule}
    (found : srcs.find id = some src) :
    ∃ lk bef, ms.find id = some lk ∧ Realizes ms bef s src lk := by
  induction assembled with
  | empty => cases found
  | @addTable srcs ms s _ ih =>
    obtain ⟨lk, bef, there, realizes⟩ := ih found
    refine ⟨lk, bef, there, ?_⟩
    simpa using realizes.later (.refl bef) s.links_addTable []
  | @resolve known srcs ms s added aft _ rsd ih =>
    obtain ⟨ordered, _, realized⟩ := resolve_realizes rsd
    have topo := dependencyOrder_topological ordered
    have new : ∀ lk ∈ added, lk.id ∉ ms.map Module.id := fun lk mem =>
      ((topo.mem_iff lk.id).1 (List.mem_map_of_mem mem)).2
    rw [Modules.insertAll_of_new topo.nodup new]
    rw [Sources.find, List.find?_append, Option.or_eq_some_iff] at found
    rcases found with early | ⟨_, late⟩
    · obtain ⟨lk, bef, there, realizes⟩ := ih early
      exact ⟨lk, bef, Modules.find_append there added,
        realizes.later (.refl bef) (resolve_store_links rsd) added⟩
    · obtain ⟨lk, mem, there, same⟩ := Modules.find_of_mem (mem_order_of_find ordered late)
      obtain ⟨og, known, realizes⟩ := realized lk mem
      subst same
      cases known.symm.trans late
      grind [Modules.find_append_of_none, Modules.find_eq_none]

end Assembled

/-! ### Declared names -/

/-- A name of an environment stands for the thunk of its term. -/
structure Store.Declares (s : Store) (env : Env) (bn : Binding) (a : Address) :
    Prop where
  found : s.find bn.name env = some a
  held : s.thunk? a = some (.suspended bn.term env (some bn.name))

theorem Store.globals_of_find {s : Store} {env : Env} {x : Name} {a : Address}
    (found : s.find x env = some a) : s.globals env x = .free a := by
  simp [Store.globals, found]

theorem Store.Declares.defined {s : Store} {env : Env} {bn : Binding} {a : Address}
    (declares : s.Declares env bn a) : s.definitions a = some (s.source env bn.term) := by
  simp [Store.definitions, declares.held, Thunk.code?, Thunk.suspended]

namespace Realizes

variable {ms : Modules} {bef ely aft : Store} {src og : ParsedModule}
  {lk ex : Module}

theorem declares (realizes : Realizes ms bef aft src lk) (i : Nat)
    (listed : src.bindings[i]? = some bn) : ∃ a, aft.Declares lk.env bn a := by
  have mem : bn ∈ lk.declarations.map Declaration.binding :=
    realizes.bindings ▸ List.mem_of_getElem? listed
  obtain ⟨d, dcd, rfl⟩ := List.mem_map.mp mem
  obtain ⟨_, held, found⟩ := realizes.thunks d dcd
  exact ⟨d.thunk, found, held⟩

/-- An imported name stands for what it stands for where it is declared. -/
theorem imports (realizes : Realizes ms bef aft src lk) (exports : Realizes ms ely aft og ex)
    {stm : Import} {itm : ImportItem} {a : Address} (pos i : Nat)
    (stated : src.imports[pos]? = some stm) (listed : stm.items[i]? = some itm)
    (exporting : ms.find stm.source = some ex) (found : aft.find itm.name ex.env = some a) :
    aft.find itm.localName lk.env = some a := by
  obtain ⟨o, d, there, dcd, bound⟩ := realizes.aliases stm
    (List.mem_of_getElem? stated) itm (List.mem_of_getElem? listed)
  cases exporting.symm.trans there
  have named : d.name = itm.name := by simpa using List.find?_some dcd
  obtain ⟨_, _, located⟩ := exports.thunks d (List.mem_of_find?_eq_some dcd)
  simp_all

end Realizes

/-! ### The bundled modules -/

/-- The module of a bundled text.  The ids of modules are given by their paths. -/
def bundledModule (located : String → String) (x tx : String) :
    Except ParseFault ParsedModule :=
  (parseModule tx (located ("./" ++ x)) (located ("./" ++ x))).map fun pd =>
    { pd with
      imports := pd.imports.map fun stm =>
        { stm with source := located (withExtension stm.source) } }

/-- All bundled modules are among sources. -/
def Sources.Bundled (srcs : Sources) (located : String → String) : Prop :=
  ∀ en ∈ bundle, ∃ src, bundledModule located en.1 en.2 = .ok src ∧
    srcs.find (located ("./" ++ en.1)) = some src

/-- The names of the library in the environment of its numbers.  Some of them stand for
abstractions whose parameters have the names that they are written with. -/
structure Library (s : Store) (env : Env) where
  names : Arithmetic s.definitions
  suc : s.find "Suc" env = some names.suc
  sum : s.find "Sum" env = some names.sum
  prod : s.find "Prod" env = some names.prod
  pow : s.find "Pow" env = some names.pow
  pred : s.find "Pred" env = some names.pred
  fact : s.find "Fact" env = some names.fact
  isZero : s.find "Zero?" env = some names.isZero
  yes : s.find "True" env = some names.yes
  no : s.find "False" env = some names.no
  constant : s.find "K" env = some names.constant
  isZero_abstracts : s.Abstracts names.isZero "n"
    (.app (.app (.var "n") (.app (.var "K") (.var "False"))) (.var "True")) env
  yes_abstracts : ∃ o, s.Abstracts names.yes "t" (.lam "f" (.var "t")) o
  no_abstracts : ∃ o, s.Abstracts names.no "t" (.lam "f" (.var "f")) o
  constant_abstracts : ∃ o, s.Abstracts names.constant "x" (.lam "y" (.var "x")) o

/-- The module of a bundled text with its statements. -/
def bundledSource (located : String → String) (x : String) (pd : List Statement) :
    ParsedModule where
  id := located ("./" ++ x)
  path := located ("./" ++ x)
  imports := (pd.filterMap Statement.import?).map fun stm =>
    { stm with source := located (withExtension stm.source) }
  bindings := pd.filterMap Statement.binding?

theorem bundledModule_of_parse (done : parseText statements tx = .ok pd) (located : String → String)
    (x : String) : bundledModule located x tx = .ok (bundledSource located x pd) := by
  simp [bundledModule, bundledSource, parseModule, done, Except.map, firstNonempty]

section Linking

variable {srcs : Sources} {ms : Modules} {s : Store} {located : String → String}

theorem Assembled.bundled (assembled : Assembled srcs ms s)
    (bundled : srcs.Bundled located) {x : String} (i : Nat)
    (listed : bundle[i]? = some (x, tx)) (done : parseText statements tx = .ok pd) :
    ∃ lk bef, ms.find (located ("./" ++ x)) = some lk ∧
      Realizes ms bef s (bundledSource located x pd) lk := by
  obtain ⟨src, made, found⟩ := bundled (x, tx) (List.mem_of_getElem? listed)
  cases (bundledModule_of_parse done located x).symm.trans made
  exact assembled.realizes found

theorem Store.Declares.abstracts {env : Env} {x p : Name} {b : Term} {ln : Nat} {a : Address}
    (declares : s.Declares env ⟨x, .lam p b, ln⟩ a) : s.Abstracts a p b env :=
  ⟨_, declares.held, .code (by simp [Thunk.suspended]) rfl⟩

namespace Realizes

variable {bef ely : Store} {lk ex : Module}

theorem truths (realizes : Realizes ms bef s
      (bundledSource located "booleans.lc" booleansStatements) lk) :
    ∃ truths : Truths s.definitions, s.find "True" lk.env = some truths.yes ∧
      s.find "False" lk.env = some truths.no ∧
      s.find "If" lk.env = some truths.choice ∧
      s.Abstracts truths.yes "t" (.lam "f" (.var "t")) lk.env ∧
      s.Abstracts truths.no "t" (.lam "f" (.var "f")) lk.env := by
  obtain ⟨yes, yesIs⟩ := realizes.declares 0 rfl
  obtain ⟨no, noIs⟩ := realizes.declares 1 rfl
  obtain ⟨choice, choiceIs⟩ := realizes.declares 2 rfl
  refine ⟨⟨yes, no, choice, ?_, ?_, ?_⟩, yesIs.found, noIs.found, choiceIs.found, yesIs.abstracts,
    noIs.abstracts⟩
  · simpa [Store.source, Term.nameless] using yesIs.defined
  · simpa [Store.source, Term.nameless] using noIs.defined
  · simpa [Store.source, Term.nameless] using choiceIs.defined

theorem combinators (realizes : Realizes ms bef s
      (bundledSource located "general.lc" generalStatements) lk) :
    ∃ combinators : Combinators s.definitions, s.find "K" lk.env = some combinators.constant ∧
      s.find "Y" lk.env = some combinators.fixpoint ∧
      s.Abstracts combinators.constant "x" (.lam "y" (.var "x")) lk.env := by
  obtain ⟨constant, constantIs⟩ := realizes.declares 1 rfl
  obtain ⟨fixpoint, fixpointIs⟩ := realizes.declares 5 rfl
  refine ⟨⟨constant, fixpoint, ?_, ?_⟩, constantIs.found, fixpointIs.found, constantIs.abstracts⟩
  · simpa [Store.source, Term.nameless] using constantIs.defined
  · simpa [Store.source, Term.nameless] using fixpointIs.defined

theorem tuples (truths : Truths s.definitions)
    (realizes : Realizes ms bef s (bundledSource located "pairs.lc" pairsStatements) lk)
    (yes : s.find "True" lk.env = some truths.yes)
    (no : s.find "False" lk.env = some truths.no) :
    ∃ tuples : Tuples s.definitions, tuples.toTruths = truths ∧
      s.find "Cons" lk.env = some tuples.pair ∧
      s.find "Fst" lk.env = some tuples.first ∧
      s.find "Snd" lk.env = some tuples.second := by
  obtain ⟨pair, pairIs⟩ := realizes.declares 0 rfl
  obtain ⟨fst, firstIs⟩ := realizes.declares 1 rfl
  obtain ⟨snd, secondIs⟩ := realizes.declares 2 rfl
  refine ⟨⟨truths, pair, fst, snd, ?_, ?_, ?_⟩, rfl, pairIs.found, firstIs.found, secondIs.found⟩
  · simpa [Store.source, Term.nameless] using pairIs.defined
  · simpa [Store.source, Term.nameless, Store.globals_of_find yes] using firstIs.defined
  · simpa [Store.source, Term.nameless, Store.globals_of_find no] using secondIs.defined

theorem arithmetic (tuples : Tuples s.definitions) (combinators : Combinators s.definitions)
    (realizes : Realizes ms bef s (bundledSource located "numbers.lc" numbersStatements) lk)
    (yes : s.find "True" lk.env = some tuples.yes)
    (no : s.find "False" lk.env = some tuples.no)
    (choice : s.find "If" lk.env = some tuples.choice)
    (pair : s.find "Cons" lk.env = some tuples.pair)
    (fst : s.find "Fst" lk.env = some tuples.first)
    (snd : s.find "Snd" lk.env = some tuples.second)
    (constant : s.find "K" lk.env = some combinators.constant)
    (fixpoint : s.find "Y" lk.env = some combinators.fixpoint) :
    ∃ xs : Arithmetic s.definitions, xs.toTuples = tuples ∧
      xs.toCombinators = combinators ∧
      s.find "Suc" lk.env = some xs.suc ∧
      s.find "Sum" lk.env = some xs.sum ∧
      s.find "Prod" lk.env = some xs.prod ∧
      s.find "Pow" lk.env = some xs.pow ∧
      s.find "Pred" lk.env = some xs.pred ∧
      s.find "Fact" lk.env = some xs.fact ∧
      s.find "Zero?" lk.env = some xs.isZero ∧
      s.Abstracts xs.isZero "n"
        (.app (.app (.var "n") (.app (.var "K") (.var "False"))) (.var "True")) lk.env := by
  obtain ⟨og, originIs⟩ := realizes.declares 0 rfl
  obtain ⟨suc, sucIs⟩ := realizes.declares 1 rfl
  obtain ⟨isZero, isZeroIs⟩ := realizes.declares 2 rfl
  obtain ⟨pred, predIs⟩ := realizes.declares 3 rfl
  obtain ⟨sum, sumIs⟩ := realizes.declares 4 rfl
  obtain ⟨prod, prodIs⟩ := realizes.declares 5 rfl
  obtain ⟨pow, powIs⟩ := realizes.declares 6 rfl
  obtain ⟨fact, factIs⟩ := realizes.declares 7 rfl
  -- what the names stand for that the definitions below refer to
  have impd := @Store.globals_of_find s lk.env
  have dcd : ∀ {bn a}, s.Declares lk.env bn a → s.globals lk.env bn.name = .free a :=
    fun declares => impd declares.found
  refine ⟨⟨tuples, combinators, og, suc, isZero, pred, sum, prod, pow, fact,
    ?_, ?_, ?_, ?_, ?_, ?_, ?_, ?_⟩, rfl, rfl, sucIs.found, sumIs.found, prodIs.found, powIs.found,
    predIs.found, factIs.found, isZeroIs.found, isZeroIs.abstracts⟩
  · simpa [Store.source, Term.nameless] using originIs.defined
  · simpa [Store.source, Term.nameless] using sucIs.defined
  · simpa [Store.source, Term.nameless, impd constant, impd no, impd yes] using isZeroIs.defined
  · simpa [Store.source, Term.nameless, impd fst, impd pair, impd snd,
      dcd sucIs, dcd originIs] using predIs.defined
  · simpa [Store.source, Term.nameless, dcd sucIs] using sumIs.defined
  · simpa [Store.source, Term.nameless, dcd sumIs, dcd originIs] using prodIs.defined
  · simpa [Store.source, Term.nameless, dcd prodIs, dcd sucIs, dcd originIs] using powIs.defined
  · simpa [Store.source, Term.nameless, impd fixpoint, impd choice,
      dcd isZeroIs, dcd sucIs, dcd originIs, dcd prodIs, dcd predIs] using factIs.defined

end Realizes

theorem Assembled.library (assembled : Assembled srcs ms s) (bundled : srcs.Bundled located) :
    ∃ nums, ms.find (located "./numbers.lc") = some nums ∧
      Nonempty (Library s nums.env) := by
  obtain ⟨booleans, _, foundBooleans, inBooleans⟩ := assembled.bundled bundled 0 rfl parse_bundled.1
  obtain ⟨general, _, foundGeneral, inGeneral⟩ := assembled.bundled bundled 1 rfl parse_bundled.2.1
  obtain ⟨pairs, _, foundPairs, inPairs⟩ := assembled.bundled bundled 3 rfl parse_bundled.2.2.2
  obtain ⟨nums, _, foundNumbers, inNumbers⟩ := assembled.bundled bundled 2 rfl parse_bundled.2.2.1
  have pathBooleans : withExtension "./booleans" = "./" ++ "booleans.lc" := by decide +kernel
  have pathGeneral : withExtension "./general" = "./" ++ "general.lc" := by decide +kernel
  have pathPairs : withExtension "./pairs" = "./" ++ "pairs.lc" := by decide +kernel
  rw [← pathBooleans] at foundBooleans
  rw [← pathGeneral] at foundGeneral
  rw [← pathPairs] at foundPairs
  obtain ⟨truths, yes, no, choice, yesAbstracts, noAbstracts⟩ := inBooleans.truths
  obtain ⟨combinators, constant, fixpoint, constantAbstracts⟩ := inGeneral.combinators
  obtain ⟨tuples, rfl, pair, fst, snd⟩ := inPairs.tuples truths
    (inPairs.imports inBooleans 0 0 rfl rfl foundBooleans yes)
    (inPairs.imports inBooleans 0 1 rfl rfl foundBooleans no)
  have importedYes : s.find "True" nums.env = some tuples.yes :=
    inNumbers.imports inBooleans 2 1 rfl rfl foundBooleans yes
  have importedNo : s.find "False" nums.env = some tuples.no :=
    inNumbers.imports inBooleans 2 2 rfl rfl foundBooleans no
  have importedConstant : s.find "K" nums.env = some combinators.constant :=
    inNumbers.imports inGeneral 1 0 rfl rfl foundGeneral constant
  obtain ⟨xs, rfl, rfl, suc, sum, prod, pow, pred, fact, isZero, isZeroAbstracts⟩ :=
    inNumbers.arithmetic tuples combinators importedYes importedNo
      (inNumbers.imports inBooleans 2 0 rfl rfl foundBooleans choice)
      (inNumbers.imports inPairs 0 0 rfl rfl foundPairs pair)
      (inNumbers.imports inPairs 0 1 rfl rfl foundPairs fst)
      (inNumbers.imports inPairs 0 2 rfl rfl foundPairs snd) importedConstant
      (inNumbers.imports inGeneral 1 1 rfl rfl foundGeneral fixpoint)
  exact ⟨nums, foundNumbers, ⟨⟨xs, suc, sum, prod, pow, pred, fact, isZero, importedYes,
    importedNo, importedConstant, isZeroAbstracts, ⟨_, yesAbstracts⟩, ⟨_, noAbstracts⟩,
    ⟨_, constantAbstracts⟩⟩⟩⟩

end Linking

end CallByNeed
