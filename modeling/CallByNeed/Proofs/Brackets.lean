import CallByNeed.Proofs.Continuation

/-!
# Brackets of complete entries

An entry goes on as long as more brackets are opened than closed.  The grammar
closes what it opens, but brackets in a quoted path count too.  So the shell
takes every complete entry at once, except for an import from a path with open
brackets (`accepted_entry_continues`).
-/

namespace CallByNeed.Source

/-- How many more characters open a bracket than close one. -/
def excess (pair : Char × Char) (tx : List Char) : Int := tx.count pair.1 - tx.count pair.2

def brackets : List (Char × Char) := [('(', ')'), ('{', '}')]

variable {pair : Char × Char} {ch : Char} {chs tx : List Char} {kd : TokenKind}
  {toks : List Token} {ln : String} {en : Entry}

theorem continues_iff : continues ln ↔ ∃ pair ∈ brackets, 0 < excess pair ln.toList := by
  simp [continues, brackets, excess]

theorem excess_append (pair : Char × Char) (fr bk : List Char) :
    excess pair (fr ++ bk) = excess pair fr + excess pair bk := by grind [excess]

theorem excess_eq_zero (isPair : pair ∈ brackets) (plain : ∀ ch ∈ chs, ch ∉ ['(', ')', '{', '}']) :
    excess pair chs = 0 := by
  have absent : ∀ bracket ∈ ['(', ')', '{', '}'], chs.count bracket = 0 :=
    fun bracket mem => List.count_eq_zero.2 fun inside => plain bracket inside mem
  simp only [brackets, List.mem_cons, List.not_mem_nil, or_false] at isPair
  grind [excess]

/-- The excess of a token.  Only brackets and quoted texts have one. -/
def Token.excess (pair : Char × Char) (tok : Token) : Int :=
  match tok.kind with
  | .openParen => Source.excess pair ['(']
  | .closeParen => Source.excess pair [')']
  | .openBrace => Source.excess pair ['{']
  | .closeBrace => Source.excess pair ['}']
  | .string => Source.excess pair tok.text.toList
  | _ => 0

theorem not_bracket {isIn : Char → Bool} (without : ['(', ')', '{', '}'].any isIn = false)
    (mem : isIn ch) : ch ∉ ['(', ')', '{', '}'] :=
  fun bracket => List.any_eq_false.1 without ch bracket mem

theorem Spelling.excess_eq (isPair : pair ∈ brackets) (spelling : Spelling kd chs) (ln col : Nat) :
    excess pair chs = Token.excess pair ⟨kd, String.ofList chs, ln, col⟩ := by
  cases spelling with
  | @word fst rest starts continues =>
    rw [excess_eq_zero isPair]
    · unfold wordKind
      split <;> rfl
    · rintro ch (_ | ⟨_, mem⟩)
      · exact not_bracket (by decide) starts
      · exact not_bracket (by decide) (continues ch mem)
  | quoted => simp only [Token.excess, String.toList_ofList]
  | arrow => exact excess_eq_zero isPair (by simp)
  | mark isMark =>
    unfold markKind? at isMark
    split at isMark <;> cases isMark <;> first | rfl | exact excess_eq_zero isPair (by simp)

/-- The excess of tokens. -/
def level (pair : Char × Char) (toks : List Token) : Int := (toks.map (Token.excess pair)).sum

@[simp] theorem level_nil : level pair [] = 0 := by
  simp [level]

@[simp] theorem level_cons (tok : Token) :
    level pair (tok :: toks) = tok.excess pair + level pair toks := by
  simp [level]

@[simp] theorem level_append (fr bk : List Token) :
    level pair (fr ++ bk) = level pair fr + level pair bk := by
  simp [level]

theorem excess_scanLine (isPair : pair ∈ brackets) {ln : Nat}
    (scn : scanLine ln col tx = .ok toks) : excess pair tx = level pair toks := by
  fun_induction scanLine ln col tx generalizing toks with
  | case1 =>
    cases scn
    rfl
  | case2 col ch rest blank ih =>
    have skipped : excess pair [ch] = 0 :=
      excess_eq_zero isPair (by simpa using not_bracket (by decide) blank)
    grind [List.singleton_append, excess_append]
  | case3 => cases scn
  | case4 col ch rest visible lexeme found ih =>
    obtain ⟨os, pd, same⟩ := ok_of_bind scn
    cases same
    obtain ⟨whole, cuts⟩ := lexeme?_cuts found
    rw [level_cons, ← cuts.spelling.excess_eq isPair, ← ih pd, ← excess_append, ← whole]

/-! ### The grammar closes what it opens -/

theorem Parameters.level (pars : Parameters toks xs) : level pair toks = 0 := by
  induction pars with
  | single x => simp [Token.excess, x]
  | more x comma _ ih => simp [Token.excess, x, comma, ih]

theorem level_between (isPair : pair ∈ brackets) {opening closing : Token}
    (opens : opening.kind = .openParen ∧ closing.kind = .closeParen ∨
      opening.kind = .openBrace ∧ closing.kind = .closeBrace) :
    opening.excess pair + closing.excess pair = 0 := by
  simp only [brackets, List.mem_cons, List.not_mem_nil, or_false] at isPair
  grind [Token.excess, excess]

mutual

theorem Expression.level {toks : List Token} {term : Term} (isPair : pair ∈ brackets) :
    Expression toks term → Source.level pair toks = 0
  | .row row => row.level isPair
  | .abstraction abstraction => abstraction.level isPair
  | .applied row last => by rw [level_append, row.level isPair, last.level isPair, add_zero]

theorem Row.level {toks : List Token} {term : Term} (isPair : pair ∈ brackets) :
    Row toks term → Source.level pair toks = 0
  | .single operand => operand.level isPair
  | .more row operand => by rw [level_append, row.level isPair, operand.level isPair, add_zero]

theorem Abstraction.level {toks : List Token} {term : Term} (isPair : pair ∈ brackets) :
    Abstraction toks term → Source.level pair toks = 0
  | .plain name isArrow inner => by simp [Token.excess, name, isArrow, inner.level isPair]
  | .list opens parameters closes isArrow inner => by
    have between := level_between isPair (.inl ⟨opens, closes⟩)
    have arrow : ∀ token : Token, token.kind = .arrow → token.excess pair = 0 := by
      grind [Token.excess]
    simp only [level_cons, level_append, parameters.level, inner.level isPair, arrow _ isArrow]
    omega

theorem Operand.level {toks : List Token} {term : Term} (isPair : pair ∈ brackets) :
    Operand toks term → Source.level pair toks = 0
  | .name name => by simp [Token.excess, name]
  | .parenthesised opens inner closes => by
    have between := level_between isPair (.inl ⟨opens, closes⟩)
    simp only [level_cons, level_append, level_nil, inner.level isPair]
    omega

end

theorem Item.level (listed : Item toks itm) : Source.level pair toks = 0 := by
  cases listed with
  | plain x => simp [Token.excess, x]
  | renamed x isAs otherName => simp_all [Token.isKeyword, Token.excess]

theorem Items.level (listed : Items toks its) :
    Source.level pair toks = 0 := by
  induction listed with
  | single only => exact only.level
  | more fst comma _ ih => simp [Token.excess, fst.level, comma, ih]

/-- The text in quotes of an entry. -/
def Entry.quoted : Entry → String
  | .imports stm => stm.source
  | _ => ""

theorem excess_unquoted (isPair : pair ∈ brackets) {tok : Token} (quoted : tok.kind = .string)
    (spelling : Spelling tok.kind tok.text.toList) :
    tok.excess pair = excess pair (unquoted tok.text).toList := by
  simp only [Token.excess, quoted, unquoted, String.toList_ofList]
  rw [quoted] at spelling
  generalize tok.text.toList = chs at spelling
  generalize isString : TokenKind.string = kd at spelling
  have quote : excess pair ['"'] = 0 := excess_eq_zero isPair (by simp)
  cases spelling with
  | word => grind [wordKind]
  | @quoted inside =>
    rw [← List.singleton_append, List.append_assoc, excess_append, excess_append, quote]
    simp
  | arrow => cases isString
  | mark isMark => exact absurd isString.symm (kind_ne_of_mark isMark).2.1

theorem Token.excess_of_isKeyword {tok : Token} {word : String} (same : tok.isKeyword word) :
    tok.excess pair = 0 := by simp_all [Token.isKeyword, Token.excess]

theorem EntryClause.level (isPair : pair ∈ brackets) (clause : EntryClause toks en)
    (spelled : ∀ tok ∈ toks, Spelling tok.kind tok.text.toList) :
    level pair toks = excess pair en.quoted.toList := by
  cases clause with
  | imports clause =>
    obtain ⟨starts, opens, listed, closes, isFrom, quoted⟩ := clause
    have between := level_between isPair (.inr ⟨opens, closes⟩)
    have ph := excess_unquoted isPair quoted (spelled _ (by simp))
    have keyword : ∀ {tok : Token} {word : String}, tok.isKeyword word →
        tok.excess pair = 0 := Token.excess_of_isKeyword
    have word := starts.elim keyword keyword
    simp only [level_cons, level_append, level_nil, listed.level, word, ph,
      Token.excess_of_isKeyword isFrom, Entry.quoted]
    omega
  | binds clause =>
    obtain ⟨isName, isEquals, bound⟩ := clause
    simp [Token.excess, isName, isEquals, bound.level isPair, Entry.quoted, excess]
  | expression clause => simp [clause.level isPair, Entry.quoted, excess]

theorem EntryText.level (isPair : pair ∈ brackets) (tx : EntryText toks en)
    (spelled : ∀ tok ∈ toks, Spelling tok.kind tok.text.toList) :
    Source.level pair toks = excess pair en.quoted.toList := by
  cases tx with
  | bare clause => exact clause.level isPair spelled
  | ended clause ends =>
    have fr := clause.level isPair fun tok mem => spelled tok (by simp [mem])
    simp [fr, Token.excess, ends]

theorem EntryText.ne_nil (tx : EntryText toks en) : toks ≠ [] := by
  rintro rfl
  generalize nothing : ([] : List Token) = toks at tx
  cases tx with
  | bare clause =>
    subst nothing
    cases clause with
    | imports clause => cases clause
    | binds clause => cases clause
    | expression clause =>
      obtain ⟨_, _, some, _⟩ := clause.begins
      cases some
  | ended => simp at nothing

/-- The brackets of a complete entry are those of its quoted path. -/
theorem continues_of_parseEntry (newline : '\n' ∉ ln.toList) (accepted : parseEntry ln = .ok en) :
    continues ln = continues en.quoted := by
  obtain ⟨scn, done, tx⟩ := (parseEntry_decides.accepts ln en).1 accepted
  have spelled := (tiledLines_of_scan done).2.spelling
  by_cases comment : isComment ln
  · have lns : Text.lines ln = [ln] := by
      simp [Text.lines, splitAt_of_notMem newline]
    simp only [scan, lns, scanLines, comment, if_true, Except.map, Except.ok.injEq] at done
    subst done
    exact absurd rfl tx.ne_nil
  · have r := Shell.scanLine_of_scan newline (by simpa using comment) done
    rw [Bool.eq_iff_iff, continues_iff, continues_iff]
    refine exists_congr fun pair => and_congr_right fun isPair => ?_
    rw [excess_scanLine isPair r, tx.level isPair spelled]

/-- The shell takes a complete entry at once, unless it imports from a path with open
brackets. -/
theorem accepted_entry_continues {ln : String} (newline : '\n' ∉ ln.toList) {en : Entry}
    (accepted : parseEntry ln = .ok en) :
    (continues ln ↔ ∃ stm, en = .imports stm ∧ continues stm.source) ∧
      (continues ln = false → ∀ (n : Nat) (shl : Shell), shl.pending = "" →
        Shell.takeLine n ln shl = Shell.submit n ln shl.cleared) := by
  constructor
  · rw [continues_of_parseEntry newline accepted]
    cases en with
    | imports stm => simp [Entry.quoted]
    | binds => simp [Entry.quoted, continues]
    | expression => simp [Entry.quoted, continues]
  simp_all [Shell.joinPending, Shell.takeLine_eq]

theorem parseEntry_of_toOption (pd : (parseEntry ln).toOption = some en) :
    parseEntry ln = .ok en := by
  cases r : parseEntry ln with
  | error ft => simp [r, Except.toOption] at pd
  | ok o => simpa [r, Except.toOption] using pd

theorem accepted_entry_continues_application :
    parseEntry "f (x)" = .ok (.expression (.app (.var "f") (.var "x"))) ∧
      continues "f (x)" = false := by
  have accepted : parseEntry "f (x)" = .ok (.expression (.app (.var "f") (.var "x"))) :=
    parseEntry_of_toOption (by decide +kernel)
  have held := (accepted_entry_continues (by decide +kernel) accepted).1
  simp_all

/-- A bracket in a path holds a complete entry back. -/
theorem import_held_back :
    parseEntry "import \x7b a \x7d from \"x(\"" = .ok (.imports ⟨[⟨"a", "a"⟩], "x(", 1⟩) ∧
      continues "import \x7b a \x7d from \"x(\"" = true :=
  ⟨parseEntry_of_toOption (by decide +kernel), by decide +kernel⟩

end CallByNeed.Source
