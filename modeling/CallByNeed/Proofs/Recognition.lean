import CallByNeed.Proofs.Grammar
import CallByNeed.Source.Statement

/-!
# The grammar of modules and entries

A module is a sequence of imports and bindings, each ended by a semicolon.  An
entry is an import, a binding or an expression, and one semicolon may end it.
The relations say which tokens stand for which imports, bindings and entries.

`parsers_decide` is the main statement: each parser of a whole text gives what
the grammar derives from the tokens of the text, and refuses a text from which
the grammar derives nothing.
-/

variable {itm : ImportItem} {kd : TokenKind} {word : Token} {bound : Nat} {β : Type}
  {x : Token}

namespace CallByNeed.Source

/-- An imported name, and the name that it is given here. -/
inductive Item : List Token → ImportItem → Prop where
  | plain {x : Token} (isName : x.kind = .name) : Item [x] ⟨x.text, x.text⟩
  | renamed {x word o : Token} (isName : x.kind = .name) (isAs : word.isKeyword "as")
      (otherName : o.kind = .name) : Item [x, word, o] ⟨x.text, o.text⟩

inductive Items : List Token → List ImportItem → Prop where
  | single {toks : List Token} {itm : ImportItem} (only : Item toks itm) : Items toks [itm]
  | more {fr bk : List Token} {sep : Token} {itm : ImportItem}
      {its : List ImportItem} (fst : Item fr itm) (comma : sep.kind = .comma)
      (rest : Items bk its) : Items (fr ++ sep :: bk) (itm :: its)

/-- An import without its semicolon. -/
inductive ImportClause : List Token → Import → Prop where
  | clause {word opening closing joint ph : Token} {list : List Token}
      {its : List ImportItem} (starts : word.isKeyword "import" ∨ word.isKeyword "use")
      (opens : opening.kind = .openBrace) (listed : Items list its)
      (closes : closing.kind = .closeBrace) (isFrom : joint.isKeyword "from")
      (quoted : ph.kind = .string) :
      ImportClause (word :: opening :: (list ++ [closing, joint, ph]))
        ⟨its, unquoted ph.text, word.line⟩

/-- A binding without its semicolon. -/
inductive BindingClause : List Token → Binding → Prop where
  | clause {x equals : Token} {b : List Token} {t : Term} (isName : x.kind = .name)
      (isEquals : equals.kind = .equals) (bound : Expression b t) :
      BindingClause (x :: equals :: b) ⟨x.text, t, x.line⟩

/-- The tokens of a module, with its imports and its bindings in their order. -/
inductive ModuleText : List Token → List Import → List Binding → Prop where
  | nil : ModuleText [] [] []
  | imports {fr bk : List Token} {semi : Token} {stm : Import}
      {ims : List Import} {bns : List Binding} (fst : ImportClause fr stm)
      (ends : semi.kind = .semicolon) (rest : ModuleText bk ims bns) :
      ModuleText (fr ++ semi :: bk) (stm :: ims) bns
  | binds {fr bk : List Token} {semi : Token} {bn : Binding}
      {ims : List Import} {bns : List Binding} (fst : BindingClause fr bn)
      (ends : semi.kind = .semicolon) (rest : ModuleText bk ims bns) :
      ModuleText (fr ++ semi :: bk) ims (bn :: bns)

inductive EntryClause : List Token → Entry → Prop where
  | imports {toks : List Token} {stm : Import} (clause : ImportClause toks stm) :
      EntryClause toks (.imports stm)
  | binds {toks : List Token} {bn : Binding} (clause : BindingClause toks bn) :
      EntryClause toks (.binds bn)
  | expression {toks : List Token} {t : Term} (clause : Expression toks t) :
      EntryClause toks (.expression t)

/-- The tokens of an entry, whose semicolon can be left out. -/
inductive EntryText : List Token → Entry → Prop where
  | bare {toks : List Token} {en : Entry} (clause : EntryClause toks en) : EntryText toks en
  | ended {toks : List Token} {semi : Token} {en : Entry}
      (clause : EntryClause toks en) (ends : semi.kind = .semicolon) :
      EntryText (toks ++ [semi]) en

variable {toks rest : List Token} {tok semi : Token} {bn : Binding} {α : Type}
  {en : Entry}

section Clauses

variable {fi : Token}

theorem importItem_sound (yields : Yields (importItem fi toks) itm rest) :
    ∃ fr, toks = fr ++ rest ∧ Item fr itm := by
  obtain ⟨_, pd⟩ := yields
  obtain ⟨x, os, _, fst, pd⟩ := yields_of_bind pd
  obtain ⟨rfl, isName⟩ := yields_expect_cases fst
  cases os with
  | nil =>
    cases pd
    exact ⟨[x], rfl, .plain isName⟩
  | cons tok os =>
    dsimp only at pd
    split at pd
    · rename_i isAs
      obtain ⟨o, _, _, snd, same⟩ := yields_of_bind pd
      obtain ⟨rfl, otherName⟩ := yields_expect_cases snd
      cases same
      exact ⟨[x, tok, o], rfl, .renamed isName isAs otherName⟩
    · cases pd
      exact ⟨[x], rfl, .plain isName⟩

theorem importItems_sound {toks rest : List Token}
    (yields : Yields (importItems fi toks) its rest) : ∃ fr, toks = fr ++ rest ∧ Items fr its := by
  obtain ⟨_, pd⟩ := yields
  rw [importItems] at pd
  obtain ⟨itm, os, smaller, fst, pd⟩ := yields_of_bind pd
  obtain ⟨fr, split, listed⟩ := importItem_sound fst
  cases os with
  | nil =>
    cases pd
    exact ⟨fr, split, .single listed⟩
  | cons tok os =>
    dsimp only at pd
    split at pd
    · rename_i comma
      obtain ⟨vs, _, _, snd, same⟩ := yields_of_bind pd
      cases same
      have fewer : os.length < toks.length := Nat.lt_of_succ_lt smaller
      obtain ⟨bk, rfl, more⟩ := importItems_sound snd
      exact ⟨fr ++ tok :: bk, by simpa using split, .more listed comma more⟩
    · cases pd
      exact ⟨fr, split, .single listed⟩
termination_by toks.length

/-- Nothing that could rename an item is next. -/
def NoRenaming (toks : List Token) : Prop :=
  ∀ tok ∈ toks.head?, tok.isKeyword "as" = false

theorem Item.parsed (fi : Token) (noRenaming : NoRenaming rest)
    (listed : Item toks itm) : Yields (importItem fi (toks ++ rest)) itm rest := by
  unfold Yields
  cases listed with
  | @plain x isName =>
    cases rest with
    | nil => simp [importItem, expect, isName, bind, Except.bind]
    | cons tok rest =>
      have o : tok.isKeyword "as" = false := noRenaming tok rfl
      simp [importItem, expect, isName, o, bind, Except.bind]
  | @renamed x word o isName isAs otherName =>
    have fewer : rest.length < rest.length + 1 + 1 + 1 := by omega
    simp [importItem, expect, isName, isAs, otherName, fewer, bind, Except.bind]

theorem noRenaming_of_kind (same : tok.kind = kd) (o : kd ≠ .keyword)
    (rest : List Token) : NoRenaming (tok :: rest) := by
  intro next fst
  cases fst
  simp [Token.isKeyword, same, o]

/-- The closing brace is what ends a list of items. -/
theorem Items.parsed (fi : Token)
    (closes : closing.kind = .closeBrace) (rest : List Token) (listed : Items toks its) :
    Yields (importItems fi (toks ++ closing :: rest)) its (closing :: rest) := by
  induction listed with
  | single only =>
    obtain ⟨shorter, pd⟩ := only.parsed fi (noRenaming_of_kind closes (by decide) rest)
    unfold Yields
    rw [importItems]
    simp only [pd, bind, Except.bind, closes]
    grind
  | @more fr bk sep itm its fst comma _ ih =>
    rw [List.append_assoc, List.cons_append]
    obtain ⟨shorter, pd⟩ :=
      fst.parsed fi (noRenaming_of_kind comma (by decide) (bk ++ closing :: rest))
    obtain ⟨fewer, os⟩ := ih
    unfold Yields
    rw [importItems]
    simp only [pd, bind, Except.bind, comma, os]
    grind

theorem yields_expectFrom_cases (yields : Yields (expectFrom fi toks) tok rest) :
    toks = tok :: rest ∧ tok.isKeyword "from" := by
  obtain ⟨_, pd⟩ := yields
  cases toks with
  | nil => cases pd
  | cons fst os => grind [expectFrom]

variable {stm : Import}

theorem importBody_sound
    (starts : word.isKeyword "import" ∨ word.isKeyword "use")
    (yields : Yields (importBody fi word.line toks) stm rest) :
    ∃ fr, toks = fr ++ rest ∧ ImportClause (word :: fr) stm := by
  obtain ⟨_, pd⟩ := yields
  obtain ⟨opening, _, _, fst, pd⟩ := yields_of_bind pd
  obtain ⟨its, _, _, snd, pd⟩ := yields_of_bind pd
  obtain ⟨closing, _, _, thd, pd⟩ := yields_of_bind pd
  obtain ⟨joint, _, _, fourth, pd⟩ := yields_of_bind pd
  obtain ⟨ph, _, _, fifth, same⟩ := yields_of_bind pd
  cases same
  obtain ⟨rfl, opens⟩ := yields_expect_cases fst
  obtain ⟨list, rfl, listed⟩ := importItems_sound snd
  obtain ⟨rfl, closes⟩ := yields_expect_cases thd
  obtain ⟨rfl, isFrom⟩ := yields_expectFrom_cases fourth
  obtain ⟨rfl, quoted⟩ := yields_expect_cases fifth
  refine ⟨opening :: (list ++ [closing, joint, ph]), by simp, ?_⟩
  exact .clause starts opens listed closes isFrom quoted

theorem ImportClause.parsed (fi : Token) (clause : ImportClause (word :: toks) stm)
    (rest : List Token) : Yields (importBody fi word.line (toks ++ rest)) stm rest := by
  cases clause with
  | @clause _ opening closing joint ph list its starts opens listed closes isFrom quoted =>
    obtain ⟨shorter, pd⟩ := listed.parsed fi closes (joint :: ph :: rest)
    simp only [List.length_cons] at shorter
    unfold Yields
    simp only [importBody, expectSymbol, expect, expectFrom, List.cons_append, List.append_assoc,
      List.nil_append, opens, closes, isFrom, quoted, pd, bind, Except.bind, if_true]
    grind

theorem bindingBody_sound (isName : x.kind = .name)
    (yields : Yields (bindingBody fi x toks) bn rest) :
    ∃ fr, toks = fr ++ rest ∧ BindingClause (x :: fr) bn := by
  obtain ⟨_, pd⟩ := yields
  obtain ⟨equals, _, _, fst, pd⟩ := yields_of_bind pd
  obtain ⟨t, _, _, snd, same⟩ := yields_of_bind pd
  cases same
  obtain ⟨rfl, isEquals⟩ := yields_expect_cases fst
  obtain ⟨b, rfl, bound⟩ := expression_sound snd
  exact ⟨equals :: b, rfl, .clause isName isEquals bound⟩

theorem BindingClause.parsed (clause : BindingClause (x :: toks) bn)
    (stops : Stops fi rest) : Yields (bindingBody fi x (toks ++ rest)) bn rest := by
  cases clause with
  | @clause _ equals b t isName isEquals bound =>
    obtain ⟨shorter, pd⟩ := bound.parsed stops
    unfold Yields
    simp only [bindingBody, expectSymbol, expect, List.cons_append, isEquals, pd, bind,
      Except.bind, if_true]
    exact ⟨Nat.lt_succ_of_lt shorter, trivial⟩

/-! ### Statements -/

theorem ImportClause.startsImport (clause : ImportClause toks stm) (rest : List Token) :
    startsImport (toks ++ rest) = true := by
  cases clause with
  | clause starts => simpa [Source.startsImport] using starts

theorem startsImport_of_kind (same : tok.kind = kd) (o : kd ≠ .keyword)
    (rest : List Token) : startsImport (tok :: rest) = false := by
  simp [Source.startsImport, Token.isKeyword, same, o]

theorem terminated_sound {pd : Parsed α bound} {v : α}
    (yields : Yields (terminated fi pd) v rest) :
    v = pd.value ∧ ∃ semi, semi.kind = .semicolon ∧ pd.rest = semi :: rest := by
  obtain ⟨_, done⟩ := yields
  obtain ⟨semi, _, _, fst, same⟩ := yields_of_bind done
  cases same
  obtain ⟨split, ends⟩ := yields_expect_cases fst
  simp_all

theorem statement_sound {v : Statement} (yields : Yields (statement fi toks) v rest) :
    ∃ fr semi, toks = fr ++ semi :: rest ∧ semi.kind = .semicolon ∧
      ((∃ pd, v = .imports pd ∧ ImportClause fr pd) ∨
        (∃ pd, v = .binds pd ∧ BindingClause fr pd)) := by
  obtain ⟨_, pd⟩ := yields
  cases toks with
  | nil => cases pd
  | cons fst os =>
    rw [statement] at pd
    split at pd
    · rename_i starts
      obtain ⟨clause, _, _, b, pd⟩ := yields_of_bind pd
      obtain ⟨_, _, _, done, same⟩ := yields_of_bind pd
      cases same
      obtain ⟨rfl, semi, ends, rfl⟩ := terminated_sound done
      obtain ⟨fr, rfl, clause⟩ := importBody_sound (by simpa [Source.startsImport] using starts) b
      grind
    · split at pd
      · rename_i starts
        obtain ⟨clause, _, _, b, pd⟩ := yields_of_bind pd
        obtain ⟨_, _, _, done, same⟩ := yields_of_bind pd
        cases same
        obtain ⟨rfl, semi, ends, rfl⟩ := terminated_sound done
        have isName : fst.kind = .name := by
          cases os <;> simp_all [startsBinding]
        grind [bindingBody_sound]
      · cases pd

theorem stops_of_semicolon (fi : Token) (ends : semi.kind = .semicolon) (rest : List Token) :
    Stops fi (semi :: rest) := by
  simp [Stops, ends, goesOn]

theorem ImportClause.statement_parsed (fi : Token) (clause : ImportClause toks stm)
    (ends : semi.kind = .semicolon) (rest : List Token) :
    Yields (Source.statement fi (toks ++ semi :: rest)) (.imports stm) rest := by
  have starts := clause.startsImport (semi :: rest)
  cases toks with
  | nil => cases clause
  | cons word toks =>
    obtain ⟨shorter, pd⟩ := clause.parsed fi (semi :: rest)
    rw [List.cons_append] at starts
    unfold Yields
    simp only [Source.statement, List.cons_append, starts, pd, terminated, expectSymbol,
      expect, ends, bind, Except.bind, if_true]
    grind

theorem BindingClause.starts (clause : BindingClause toks bn) (rest : List Token) :
    startsImport (toks ++ rest) = false ∧ startsBinding (toks ++ rest) = true := by
  cases clause with
  | clause isName isEquals => simp_all [startsImport_of_kind, startsBinding]

theorem BindingClause.statement_parsed (fi : Token) (clause : BindingClause toks bn)
    (ends : semi.kind = .semicolon) (rest : List Token) :
    Yields (statement fi (toks ++ semi :: rest)) (.binds bn) rest := by
  obtain ⟨noImport, starts⟩ := clause.starts (semi :: rest)
  cases toks with
  | nil => cases clause
  | cons x toks =>
    obtain ⟨shorter, pd⟩ := clause.parsed (stops_of_semicolon fi ends rest)
    rw [List.cons_append] at noImport starts
    unfold Yields
    simp only [statement, List.cons_append, noImport, starts, pd, terminated, expectSymbol,
      expect, ends, bind, Except.bind, if_true]
    grind

theorem statements_sound {pd : List Statement} (done : statements fi toks = .ok pd) :
    ModuleText toks (pd.filterMap Statement.import?) (pd.filterMap Statement.binding?) := by
  fun_induction statements fi toks generalizing pd with
  | case1 =>
    cases done
    exact .nil
  | case2 fst rest ih =>
    obtain ⟨head, os, shorter, yields, done⟩ := yields_of_bind done
    obtain ⟨tail, last, same⟩ := ok_of_bind done
    cases same
    have tx := ih ⟨head, os, shorter⟩ last
    obtain ⟨fr, semi, split, ends, clause⟩ := statement_sound yields
    dsimp only
    rw [split]
    rcases clause with ⟨stm, rfl, clause⟩ | ⟨bn, rfl, clause⟩
    · exact .imports clause ends tx
    · exact .binds clause ends tx

theorem statements_cons {head : Statement} {tail : List Statement}
    (fst : Yields (statement fi toks) head rest) (os : statements fi rest = .ok tail) :
    statements fi toks = .ok (head :: tail) := by
  obtain ⟨shorter, pd⟩ := fst
  cases toks with
  | nil => cases pd
  | cons tok toks =>
    rw [statements]
    simp only [pd, os, bind, Except.bind]

theorem ModuleText.parsed (fi : Token)
    (tx : ModuleText toks ims bns) :
    ∃ pd, statements fi toks = .ok pd ∧
      pd.filterMap Statement.import? = ims ∧ pd.filterMap Statement.binding? = bns := by
  induction tx with
  | nil => exact ⟨[], by rw [statements], rfl, rfl⟩
  | @imports fr bk semi stm ims bns fst ends _ ih =>
    obtain ⟨tail, os, rfl, rfl⟩ := ih
    have head := fst.statement_parsed fi ends bk
    exact ⟨.imports stm :: tail, statements_cons head os, rfl, rfl⟩
  | @binds fr bk semi bn ims bns fst ends _ ih =>
    obtain ⟨tail, os, rfl, rfl⟩ := ih
    have head := fst.statement_parsed fi ends bk
    exact ⟨.binds bn :: tail, statements_cons head os, rfl, rfl⟩

/-! ### Entries -/

theorem yields_of_map {f : Parsed α bound → β}
    {r : β} (done : parse.map f = .ok r) :
    ∃ v rest shorter, Yields parse v rest ∧ f ⟨v, rest, shorter⟩ = r := by
  cases parse with
  | error ft => cases done
  | ok pd =>
    cases done
    exact ⟨pd.value, pd.rest, pd.shorter, ⟨pd.shorter, rfl⟩, rfl⟩

theorem entryBody_sound (done : entryBody fi toks = .ok (en, rest)) :
    ∃ fr, toks = fr ++ rest ∧ EntryClause fr en := by
  cases toks with
  | nil =>
    obtain ⟨t, _, _, yields, same⟩ := yields_of_map done
    grind
  | cons fst os =>
    rw [entryBody] at done
    split at done
    · rename_i starts
      obtain ⟨stm, _, _, yields, same⟩ := yields_of_map done
      cases same
      obtain ⟨fr, rfl, clause⟩ :=
        importBody_sound (by simpa [Source.startsImport] using starts) yields
      exact ⟨fst :: fr, rfl, .imports clause⟩
    · split at done
      · rename_i starts
        obtain ⟨bn, _, _, yields, same⟩ := yields_of_map done
        cases same
        have isName : fst.kind = .name := by
          cases os <;> simp_all [startsBinding]
        obtain ⟨fr, rfl, clause⟩ := bindingBody_sound isName yields
        exact ⟨fst :: fr, rfl, .binds clause⟩
      · obtain ⟨t, _, _, yields, same⟩ := yields_of_map done
        cases same
        obtain ⟨fr, split, clause⟩ := expression_sound yields
        exact ⟨fr, split, .expression clause⟩

/-- Nothing is left behind an entry but the semicolon that may end it. -/
def EntryEnd (rest : List Token) : Prop :=
  rest = [] ∨ ∃ semi, rest = [semi] ∧ semi.kind = .semicolon

theorem EntryEnd.stops (ended : EntryEnd rest) (last : fi.kind = .endOfInput) : Stops fi rest := by
  rcases ended with rfl | ⟨semi, rfl, ends⟩
  · simp [Stops, last, goesOn]
  · exact stops_of_semicolon fi ends []

theorem expectEnd_skipSemicolon : expectEnd (skipSemicolon rest) = .ok () ↔ EntryEnd rest := by
  constructor
  · intro done
    cases rest with
    | nil => exact .inl rfl
    | cons tok rest =>
      rw [skipSemicolon] at done
      split at done
      · rename_i ends
        cases rest with
        | nil => exact .inr ⟨tok, rfl, ends⟩
        | cons o rest => cases done
      · cases done
  · rintro (rfl | ⟨semi, rfl, ends⟩)
    · rfl
    · simp [skipSemicolon, ends, expectEnd]

/-- An expression begins neither like an import nor like a binding. -/
theorem Begins.starts (begins : Begins toks) (ended : EntryEnd rest) :
    startsImport (toks ++ rest) = false ∧ startsBinding (toks ++ rest) = false := by
  obtain ⟨fst, toks, rfl, opens | ⟨x, snd⟩⟩ := begins
  · refine ⟨startsImport_of_kind opens (by decide) _, ?_⟩
    rw [List.cons_append]
    cases toks ++ rest <;> simp [startsBinding, opens]
  · refine ⟨startsImport_of_kind x (by decide) _, ?_⟩
    cases toks with
    | nil =>
      rcases ended with rfl | ⟨semi, rfl, ends⟩
      · rfl
      · simp [startsBinding, ends]
    | cons tok toks =>
      have follows : goesOn tok.kind := snd tok rfl
      grind [goesOn, startsBinding]

theorem EntryClause.parsed (ended : EntryEnd rest) (last : fi.kind = .endOfInput)
    (clause : EntryClause toks en) : entryBody fi (toks ++ rest) = .ok (en, rest) := by
  cases clause with
  | imports clause =>
    have starts := clause.startsImport rest
    cases toks with
    | nil => cases clause
    | cons word toks =>
      obtain ⟨_, pd⟩ := clause.parsed fi rest
      rw [List.cons_append] at starts
      simp only [entryBody, List.cons_append, starts, pd, if_true]
      rfl
  | binds clause =>
    obtain ⟨noImport, starts⟩ := clause.starts rest
    cases toks with
    | nil => cases clause
    | cons x toks =>
      obtain ⟨_, pd⟩ := clause.parsed (ended.stops last)
      rw [List.cons_append] at noImport starts
      simp only [entryBody, List.cons_append, noImport, starts, pd, if_true]
      rfl
  | @expression t clause =>
    obtain ⟨noImport, noBinding⟩ := clause.begins.starts ended
    cases toks with
    | nil =>
      obtain ⟨fst, os, split, _⟩ := clause.begins
      cases split
    | cons tok toks =>
      have yields : Yields (Source.expression fi (tok :: (toks ++ rest))) t rest :=
        clause.parsed (ended.stops last)
      obtain ⟨_, pd⟩ := yields
      rw [List.cons_append] at noImport noBinding
      simp only [entryBody, List.cons_append, noImport, noBinding, pd]
      rfl

end Clauses

/-! ### Whole texts -/

/-- The grammar derives a value from the tokens of a text. -/
def Derives {α : Type} (grammar : List Token → α → Prop) (tx : String) (v : α) : Prop :=
  ∃ scn, scan tx = .ok scn ∧ grammar scn.tokens v

/-- A parser of texts decides a grammar: it gives what the grammar derives, which is
one value at most for any tokens, and reports a fault when nothing is derived. -/
structure Decides {α : Type} (parse : String → Except ParseFault α)
    (grammar : List Token → α → Prop) : Prop where
  accepts : ∀ tx v, parse tx = .ok v ↔ Derives grammar tx v
  unambiguous : ∀ toks v o, grammar toks v → grammar toks o → v = o
  refuses : ∀ tx, (∃ ft, parse tx = .error ft) ↔ ∀ v, ¬ Derives grammar tx v

theorem parseText_eq_ok {parser : Token → List Token → Except Objection α} {tx : String} {v : α} :
    parseText parser tx = .ok v ↔
      ∃ scn, scan tx = .ok scn ∧ parser scn.final scn.tokens = .ok v := by
  unfold parseText
  split
  · simp_all
  · rename_i scn found
    constructor
    · intro done
      refine ⟨scn, found, ?_⟩
      cases pd : parser scn.final scn.tokens with
      | error ft =>
        rw [pd] at done
        cases done
      | ok r =>
        rw [pd] at done
        cases done
        rfl
    · rintro ⟨o, same, pd⟩
      rw [found] at same
      cases same
      rw [pd]
      rfl

/-- A parser decides a grammar when it gives what the grammar derives in front of any
end of input. -/
theorem Decides.of_parser {parser : Token → List Token → Except Objection α}
    {grammar : List Token → α → Prop}
    (derived : ∀ fi toks v, fi.kind = .endOfInput → (parser fi toks = .ok v ↔ grammar toks v)) :
    Decides (parseText parser) grammar := by
  have accepts : ∀ tx v, parseText parser tx = .ok v ↔ Derives grammar tx v := by
    intro tx v
    rw [parseText_eq_ok]
    constructor
    · rintro ⟨scn, found, pd⟩
      exact ⟨scn, found, (derived _ _ _ rfl).1 pd⟩
    · rintro ⟨scn, found, clause⟩
      exact ⟨scn, found, (derived _ _ _ rfl).2 clause⟩
  refine ⟨accepts, ?_, ?_⟩
  · intro toks v o fst snd
    have pd := (derived (endMark []) toks v rfl).2 fst
    rw [(derived (endMark []) toks o rfl).2 snd] at pd
    cases pd
    rfl
  · intro tx
    constructor
    · grind
    · intro nothing
      cases pd : parseText parser tx with
      | error ft => exact ⟨ft, rfl⟩
      | ok v => exact absurd ((accepts tx v).1 pd) (nothing v)

theorem expectEnd_eq_ok : expectEnd rest = .ok () ↔ rest = [] := by
  cases rest <;> simp [expectEnd]

theorem parseTerm_decides : Decides parseTerm Expression := by
  refine Decides.of_parser fun fi toks t last => ⟨fun done => ?_, fun clause => ?_⟩
  · obtain ⟨v, rest, _, yields, done⟩ := yields_of_bind done
    obtain ⟨_, ended, same⟩ := ok_of_bind done
    grind [expectEnd_eq_ok, expression_sound]
  · have stops : Stops fi [] := EntryEnd.stops (.inl rfl) last
    have yields := clause.parsed stops
    rw [List.append_nil] at yields
    obtain ⟨_, pd⟩ := yields
    simp only [pd, bind, Except.bind, expectEnd]

theorem entryText_iff :
    EntryText toks en ↔ ∃ fr rest, toks = fr ++ rest ∧ EntryClause fr en ∧ EntryEnd rest := by
  constructor
  · intro tx
    cases tx with
    | bare clause => exact ⟨toks, [], (List.append_nil toks).symm, clause, .inl rfl⟩
    | ended clause ends => exact ⟨_, _, rfl, clause, .inr ⟨_, rfl, ends⟩⟩
  · rintro ⟨fr, rest, rfl, clause, rfl | ⟨semi, rfl, ends⟩⟩
    · rw [List.append_nil]
      exact .bare clause
    · exact .ended clause ends

theorem parseEntry_decides : Decides parseEntry EntryText := by
  refine Decides.of_parser fun fi toks en last => ⟨fun done => ?_, fun tx => ?_⟩
  · obtain ⟨⟨en, rest⟩, pd, done⟩ := ok_of_bind done
    obtain ⟨_, ended, same⟩ := ok_of_bind done
    grind [entryBody_sound, entryText_iff, expectEnd_skipSemicolon]
  · obtain ⟨fr, rest, rfl, clause, ended⟩ := entryText_iff.1 tx
    simp only [clause.parsed ended last, expectEnd_skipSemicolon.2 ended, bind, Except.bind]

/-- A parsed module and the tokens that it is derived from, under a name and a path of
which one may be empty. -/
structure ModuleOf (id path : String) (toks : List Token) (pd : ParsedModule) : Prop where
  path : pd.path = firstNonempty path id
  id : pd.id = firstNonempty id pd.path
  text : ModuleText toks pd.imports pd.bindings

/-- What is done with a parsed value does not change where a fault is reported. -/
theorem parseText_map (parser : Token → List Token → Except Objection α) (f : α → β)
    (tx : String) :
    (parseText parser tx).map f = parseText (fun fi toks => (parser fi toks).map f) tx := by
  unfold parseText
  cases scan tx with
  | error stray => rfl
  | ok scn =>
    dsimp only
    cases parser scn.final scn.tokens <;> rfl

theorem parseModule_decides (id ph : String) :
    Decides (fun tx => parseModule tx id ph) (ModuleOf id ph) := by
  simp only [parseModule, parseText_map]
  refine Decides.of_parser fun fi toks v _ => ⟨fun done => ?_, fun clause => ?_⟩
  · cases pd : statements fi toks with
    | error ft =>
      rw [pd] at done
      cases done
    | ok list =>
      rw [pd] at done
      cases done
      exact ⟨rfl, rfl, statements_sound pd⟩
  · obtain ⟨samePath, sameId, tx⟩ := clause
    obtain ⟨list, pd, ims, bns⟩ := tx.parsed fi
    rw [pd, Except.map, ims, bns, ← samePath, ← sameId]

/-- The parsers of expressions, entries and modules accept exactly their grammars, and
the grammars are unambiguous. -/
theorem parsers_decide :
    Decides parseTerm Expression ∧ Decides parseEntry EntryText ∧
      ∀ id ph, Decides (fun tx => parseModule tx id ph) (ModuleOf id ph) :=
  ⟨parseTerm_decides, parseEntry_decides, parseModule_decides⟩

end CallByNeed.Source
