import CallByNeed.Source.Expression

/-!
# The grammar of expressions

An expression is a row of operands, an abstraction, or a row with an
abstraction as its last operand.  The relations below say which tokens stand
for which term, and `Expression.parsed` that the parser finds the term.

The parser looks ahead to tell a parameter list from an expression between
parentheses.  `Begins` is what the two first tokens of an expression show, and
is all that it needs.
-/

namespace CallByNeed.Source

variable {t : Term}

/-- The names of a parameter list, between its parentheses. -/
inductive Parameters : List Token → List Name → Prop where
  | single {tok : Token} (x : tok.kind = .name) : Parameters [tok] [tok.text]
  | more {tok sep : Token} {toks : List Token} {xs : List Name}
      (x : tok.kind = .name) (comma : sep.kind = .comma)
      (rest : Parameters toks xs) :
      Parameters (tok :: sep :: toks) (tok.text :: xs)

mutual

/-- Tokens that are an expression, and its term. -/
inductive Expression : List Token → Term → Prop where
  | row {toks : List Token} {t : Term} (row : Row toks t) : Expression toks t
  | abstraction {toks : List Token} {t : Term} (abstraction : Abstraction toks t) :
      Expression toks t
  | applied {fr bk : List Token} {f arg : Term} (row : Row fr f)
      (last : Abstraction bk arg) : Expression (fr ++ bk) (.app f arg)

/-- A row of operands, which associates to the left. -/
inductive Row : List Token → Term → Prop where
  | single {toks : List Token} {t : Term} (opd : Operand toks t) : Row toks t
  | more {fr bk : List Token} {f arg : Term} (row : Row fr f)
      (opd : Operand bk arg) : Row (fr ++ bk) (.app f arg)

/-- An abstraction, with one parameter or with a list of them. -/
inductive Abstraction : List Token → Term → Prop where
  | plain {tok arrow : Token} {b : List Token} {t : Term} (x : tok.kind = .name)
      (isArrow : arrow.kind = .arrow) (inn : Expression b t) :
      Abstraction (tok :: arrow :: b) (.lam tok.text t)
  | list {opening closing arrow : Token} {toks b : List Token} {xs : List Name}
      {t : Term} (opens : opening.kind = .openParen) (pars : Parameters toks xs)
      (closes : closing.kind = .closeParen) (isArrow : arrow.kind = .arrow)
      (inn : Expression b t) :
      Abstraction (opening :: (toks ++ closing :: arrow :: b)) (.lambdas xs t)

/-- A name, or an expression between parentheses. -/
inductive Operand : List Token → Term → Prop where
  | name {tok : Token} (x : tok.kind = .name) : Operand [tok] (.var tok.text)
  | parenthesised {opening closing : Token} {toks : List Token} {t : Term}
      (opens : opening.kind = .openParen) (inn : Expression toks t)
      (closes : closing.kind = .closeParen) :
      Operand (opening :: (toks ++ [closing])) t

end

/-- The kinds of tokens that can follow a name in an expression. -/
def goesOn (kd : TokenKind) : Bool := [TokenKind.name, .openParen, .arrow].contains kd

/-- How an expression begins: with a parenthesis, or with a name that is not part
of a parameter list. -/
def Begins (toks : List Token) : Prop :=
  ∃ fst rest, toks = fst :: rest ∧
    (fst.kind = .openParen ∨ fst.kind = .name ∧ ∀ snd ∈ rest.head?, goesOn snd.kind)

theorem Begins.append {fr : List Token} (begins : Begins fr) {bk : List Token}
    (next : ∀ tok ∈ bk.head?, goesOn tok.kind) : Begins (fr ++ bk) := by
  obtain ⟨fst, rest, rfl, opens | ⟨x, snd⟩⟩ := begins
  · exact ⟨fst, rest ++ bk, rfl, .inl opens⟩
  · refine ⟨fst, rest ++ bk, rfl, .inr ⟨x, ?_⟩⟩
    cases rest with
    | nil => exact next
    | cons tok rest => exact snd

variable {toks rest b : List Token} {closing : Token} {xs : List Name} {f : Term}

theorem Begins.head (begins : Begins toks) : ∀ tok ∈ toks.head?, goesOn tok.kind := by
  obtain ⟨fst, rest, rfl, opens | ⟨x, _⟩⟩ := begins
  · simp [opens, goesOn]
  · simp [x, goesOn]

mutual

theorem Expression.begins {toks : List Token} {t : Term} : Expression toks t → Begins toks
  | .row row => row.begins
  | .abstraction abstraction => abstraction.begins
  | .applied row last => row.begins.append last.begins.head

theorem Row.begins {toks : List Token} {t : Term} : Row toks t → Begins toks
  | .single opd => opd.begins
  | .more row opd => row.begins.append opd.begins.head

theorem Abstraction.begins {toks : List Token} {t : Term} : Abstraction toks t → Begins toks
  | .plain x isArrow _ => ⟨_, _, rfl, .inr ⟨x, by simp [isArrow, goesOn]⟩⟩
  | .list opens _ _ _ _ => ⟨_, _, rfl, .inl opens⟩

theorem Operand.begins {toks : List Token} {t : Term} : Operand toks t → Begins toks
  | .name x => ⟨_, _, rfl, .inr ⟨x, by simp⟩⟩
  | .parenthesised opens _ _ => ⟨_, _, rfl, .inl opens⟩

end

/-- The next token is no arrow. -/
def NoArrow (toks : List Token) : Prop := ∀ tok ∈ toks.head?, tok.kind ≠ .arrow

/-- An expression between parentheses is no parameter list, unless an arrow
follows. -/
theorem Begins.parameters?_eq_none (begins : Begins toks) (closes : closing.kind = .closeParen)
    (noArrow : NoArrow rest) : parameters? (toks ++ closing :: rest) = none := by
  obtain ⟨fst, toks, rfl, opens | ⟨x, snd⟩⟩ := begins
  · cases toks <;> simp [parameters?, opens]
  · cases toks with
    | nil =>
      cases rest with
      | nil => simp [parameters?, x, closes]
      | cons tok rest =>
        have differs : tok.kind ≠ .arrow := noArrow tok rfl
        simp [parameters?, x, closes, differs]
    | cons tok toks =>
      have follows : goesOn tok.kind := snd tok rfl
      have noComma : tok.kind ≠ .comma := by grind [goesOn]
      have noClosing : tok.kind ≠ .closeParen := by grind [goesOn]
      simp [parameters?, x, noComma, noClosing]

/-- No abstraction starts at an operand, unless an arrow follows it. -/
theorem Operand.heading?_eq_none (opd : Operand toks t) (noArrow : NoArrow rest) :
    heading? (toks ++ rest) = none := by
  cases opd with
  | @name tok x =>
    cases rest with
    | nil => simp [heading?, x]
    | cons next rest =>
      have differs : next.kind ≠ .arrow := noArrow next rfl
      simp [heading?, x, differs]
  | @parenthesised opening closing toks _ opens inn closes =>
    have none := inn.begins.parameters?_eq_none closes noArrow
    simpa [heading?, opens] using none

theorem Parameters.parameters?_eq (pars : Parameters toks xs) {arrow : Token}
    (closes : closing.kind = .closeParen) (isArrow : arrow.kind = .arrow) (b : List Token) :
    parameters? (toks ++ closing :: arrow :: b) = some (xs, b) := by
  induction pars with
  | single x => simp [parameters?, x, closes, isArrow]
  | more x comma _ ih => simp [parameters?, x, comma, ih]

/-- The tokens that are left do not continue an expression. -/
def Stops (fi : Token) (rest : List Token) : Prop := goesOn (rest.headD fi).kind = false

theorem Stops.noArrow (stops : Stops fi rest) : NoArrow rest := by
  cases rest with
  | nil => simp [NoArrow]
  | cons tok rest =>
    intro o same arrow
    grind [Stops, goesOn]

theorem Stops.operands_eq (stops : Stops fi rest) (f : Term) :
    operands fi f rest = .ok ⟨f, rest, Nat.lt_succ_self rest.length⟩ := by
  have o : goesOn (rest.headD fi).kind = false := stops
  have nothing : heading? rest = none := by
    cases rest with
    | nil => rfl
    | cons tok rest => simp_all [goesOn, heading?]
  grind [goesOn, operands]

/-- A parser gives a value and leaves tokens. -/
def Yields {α : Type} {bound : Nat} (parse : Parse α bound) (v : α) (rest : List Token) :
    Prop :=
  ∃ shorter, parse = .ok ⟨v, rest, shorter⟩

section Parsers

variable {fi : Token}

theorem yields_heading (found : heading? toks = some (xs, b))
    (inn : Yields (expression fi b) t rest) : Yields (expression fi toks) (.lambdas xs t) rest := by
  obtain ⟨shorter, pd⟩ := inn
  unfold Yields
  rw [expression]
  split
  · rename_i same
    rw [found] at same
    cases same
    rw [pd]
    exact ⟨Nat.lt_trans shorter (length_lt_of_heading? found), rfl⟩
  simp_all

theorem yields_last (found : heading? toks = some (xs, b)) (inn : Yields (expression fi b) t rest) :
    Yields (operands fi f toks) (.app f (.lambdas xs t)) rest := by
  obtain ⟨shorter, pd⟩ := inn
  unfold Yields
  rw [operands]
  split
  · rename_i same
    rw [found] at same
    cases same
    rw [pd]
    exact ⟨Nat.lt_succ_of_lt (Nat.lt_trans shorter (length_lt_of_heading? found)), rfl⟩
  simp_all

theorem yields_first {mid : List Token} (nothing : heading? toks = none)
    (fst : Yields (operand fi toks) f mid) (row : Yields (operands fi f mid) t rest) :
    Yields (expression fi toks) t rest := by
  obtain ⟨smaller, pd⟩ := fst
  obtain ⟨shorter, os⟩ := row
  unfold Yields
  rw [expression]
  split
  · simp_all
  · simp only [pd, bind, Except.bind]
    grind

theorem yields_next {mid : List Token} {arg : Term} (nothing : heading? toks = none)
    (starts : [TokenKind.name, .openParen].contains (toks.headD fi).kind)
    (next : Yields (operand fi toks) arg mid) (row : Yields (operands fi (.app f arg) mid) t rest) :
    Yields (operands fi f toks) t rest := by
  obtain ⟨smaller, pd⟩ := next
  obtain ⟨shorter, os⟩ := row
  unfold Yields
  rw [operands]
  split
  · simp_all
  · simp only [starts, if_true, pd, bind, Except.bind]
    grind

theorem yields_name (x : tok.kind = .name) (rest : List Token) :
    Yields (operand fi (tok :: rest)) (.var tok.text) rest := by
  unfold Yields
  rw [operand]
  simp [x]

theorem yields_parenthesised (opens : opening.kind = .openParen)
    (closes : closing.kind = .closeParen) (inn : Yields (expression fi toks) t (closing :: rest)) :
    Yields (operand fi (opening :: toks)) t rest := by
  obtain ⟨shorter, pd⟩ := inn
  have fewer : rest.length < toks.length + 1 := by grind
  simp_all [Yields, operand, expectSymbol, expect, bind, Except.bind]

end Parsers

theorem Operand.starts (opd : Operand toks t) (fi : Token) (rest : List Token) :
    [TokenKind.name, .openParen].contains ((toks ++ rest).headD fi).kind := by
  cases opd with
  | name x => simp [x]
  | parenthesised opens _ _ => simp [opens]

theorem Operand.noArrow (opd : Operand toks t) (rest : List Token) : NoArrow (toks ++ rest) := by
  cases opd with
  | name x => simp [NoArrow, x]
  | parenthesised opens _ _ => simp [NoArrow, opens]

theorem Abstraction.noArrow (abstraction : Abstraction toks t) (rest : List Token) :
    NoArrow (toks ++ rest) := by
  cases abstraction with
  | plain x _ _ => simp [NoArrow, x]
  | list opens _ _ _ _ => simp [NoArrow, opens]

mutual

theorem Expression.parsed {fi : Token} {toks rest : List Token} {t : Term}
    (stops : Stops fi rest) :
    Expression toks t → Yields (expression fi (toks ++ rest)) t rest
  | .row row => row.parsed stops.noArrow ⟨_, stops.operands_eq _⟩
  | .abstraction abstraction => by
      obtain ⟨xs, b, inner, found, rfl, parsed⟩ := abstraction.parsed stops
      exact yields_heading found parsed
  | @Expression.applied front back _ _ row last => by
      obtain ⟨xs, b, inner, found, rfl, parsed⟩ := last.parsed stops
      rw [List.append_assoc]
      exact row.parsed (last.noArrow rest) (yields_last found parsed)

/-- What the parser makes of a row is decided by what follows. -/
theorem Row.parsed {fi : Token} {toks more rest : List Token} {f t : Term}
    (noArrow : NoArrow more) (continues : Yields (operands fi f more) t rest) :
    Row toks f → Yields (expression fi (toks ++ more)) t rest
  | .single operand =>
    yields_first (operand.heading?_eq_none noArrow) (operand.parsed more) continues
  | @Row.more front back _ _ row operand => by
      rw [List.append_assoc]
      exact row.parsed (operand.noArrow more)
        (yields_next (operand.heading?_eq_none noArrow) (operand.starts fi more)
          (operand.parsed more) continues)

theorem Abstraction.parsed {fi : Token} {toks rest : List Token} {t : Term}
    (stops : Stops fi rest) :
    Abstraction toks t → ∃ xs b inner,
      heading? (toks ++ rest) = some (xs, b) ∧ t = .lambdas xs inner ∧
        Yields (expression fi b) inner rest
  | @Abstraction.plain token arrow b inner name isArrow expression =>
    ⟨[token.text], b ++ rest, inner, by simp [heading?, name, isArrow], rfl,
      expression.parsed stops⟩
  | @Abstraction.list opening closing arrow toks b xs inner opens parameters closes
      isArrow expression => by
      refine ⟨xs, b ++ rest, inner, ?_, rfl, expression.parsed stops⟩
      simpa [heading?, opens] using parameters.parameters?_eq closes isArrow (b ++ rest)

theorem Operand.parsed {fi : Token} {toks : List Token} {t : Term} (rest : List Token) :
    Operand toks t → Yields (operand fi (toks ++ rest)) t rest
  | .name name => yields_name name rest
  | @Operand.parenthesised opening closing toks _ opens inner closes => by
      have stops : Stops fi (closing :: rest) := by simp [Stops, closes, goesOn]
      have parsed := inner.parsed stops
      grind [yields_parenthesised]

end

/-! ### What is parsed is an expression -/

theorem parameters?_sound (found : parameters? toks = some (xs, b)) :
    ∃ list closing arrow, Parameters list xs ∧ closing.kind = .closeParen ∧
      arrow.kind = .arrow ∧ toks = list ++ closing :: arrow :: b := by
  fun_induction parameters? toks generalizing xs b with
  | case1 | case4 | case5 | case6 | case7 => simp at found
  | case2 p mark rest x comma ih =>
    simp only [Option.map_eq_some_iff, Prod.mk.injEq, Prod.exists] at found
    obtain ⟨os, _, inn, rfl, rfl⟩ := found
    obtain ⟨list, closing, arrow, pars, closes, isArrow, rfl⟩ := ih inn
    exact ⟨p :: mark :: list, closing, arrow, .more (Decidable.of_not_not x) comma pars,
      closes, isArrow, rfl⟩
  | case3 p mark x comma closes arrow rest isArrow =>
    simp only [Option.some.injEq, Prod.mk.injEq] at found
    obtain ⟨rfl, rfl⟩ := found
    exact ⟨[p], mark, arrow, .single (Decidable.of_not_not x), closes, isArrow, rfl⟩

/-- Behind the heading of an abstraction any expression can be its body. -/
theorem heading?_sound (found : heading? toks = some (xs, b)) :
    ∃ fr, toks = fr ++ b ∧ ∀ {inn t}, Expression inn t →
      Abstraction (fr ++ inn) (.lambdas xs t) := by
  fun_cases heading? toks with
  | case1 | case3 | case4 | case6 => simp_all [heading?]
  | case2 fst x arrow rest isArrow =>
    simp only [heading?, x, isArrow, if_true, Option.some.injEq, Prod.mk.injEq] at found
    obtain ⟨rfl, rfl⟩ := found
    exact ⟨[fst, arrow], rfl, fun inn => .plain x isArrow inn⟩
  | case5 fst rest x opens =>
    simp only [heading?, opens, if_true] at found
    obtain ⟨list, closing, arrow, pars, closes, isArrow, rfl⟩ := parameters?_sound found
    refine ⟨fst :: (list ++ [closing, arrow]), by simp, fun {inn t} b => ?_⟩
    have abstraction := Abstraction.list opens pars closes isArrow b
    simpa using abstraction

section Parsers

variable {fi : Token}

theorem yields_of_bind {α β : Type} {fst : Parse α bound}
    {next : Parsed α bound → Except Objection β} {r : β} (done : fst >>= next = .ok r) :
    ∃ v rest shorter, Yields fst v rest ∧ next ⟨v, rest, shorter⟩ = .ok r := by
  obtain ⟨⟨v, rest, shorter⟩, pd, os⟩ := ok_of_bind done
  exact ⟨v, rest, shorter, ⟨shorter, pd⟩, os⟩

theorem yields_expression_cases (yields : Yields (expression fi toks) t rest) :
    (∃ xs b inn, heading? toks = some (xs, b) ∧
      Yields (expression fi b) inn rest ∧ t = .lambdas xs inn) ∨
    (∃ f mid, Yields (operand fi toks) f mid ∧ Yields (operands fi f mid) t rest) := by
  obtain ⟨_, pd⟩ := yields
  rw [expression] at pd
  split at pd
  · rename_i xs b found
    obtain ⟨inn, _, _, done, same⟩ := yields_of_bind pd
    grind
  · obtain ⟨f, mid, _, fst, os⟩ := yields_of_bind pd
    obtain ⟨_, _, _, row, same⟩ := yields_of_bind os
    grind

theorem yields_operands_cases (yields : Yields (operands fi f toks) t rest) :
    (∃ xs b inn, heading? toks = some (xs, b) ∧
      Yields (expression fi b) inn rest ∧
        t = .app f (.lambdas xs inn)) ∨
    (∃ arg mid, Yields (operand fi toks) arg mid ∧
      Yields (operands fi (.app f arg) mid) t rest) ∨ (t = f ∧ rest = toks) := by
  obtain ⟨_, pd⟩ := yields
  rw [operands] at pd
  split at pd
  · rename_i xs b found
    obtain ⟨inn, _, _, done, same⟩ := yields_of_bind pd
    grind
  · split at pd
    · obtain ⟨arg, mid, _, fst, os⟩ := yields_of_bind pd
      obtain ⟨_, _, _, row, same⟩ := yields_of_bind os
      grind
    simp_all

theorem yields_expect_cases {what : Wanted}
    (yields : Yields (expect fi kd what toks) tok rest) : toks = tok :: rest ∧ tok.kind = kd := by
  obtain ⟨_, pd⟩ := yields
  cases toks with
  | nil => cases pd
  | cons fst os => grind [expect]

theorem yields_operand_cases (yields : Yields (operand fi toks) t rest) :
    (∃ tok, toks = tok :: rest ∧ tok.kind = .name ∧ t = .var tok.text) ∨
    (∃ opening inn closing, toks = opening :: inn ∧ opening.kind = .openParen ∧
      closing.kind = .closeParen ∧ Yields (expression fi inn) t (closing :: rest)) := by
  obtain ⟨_, pd⟩ := yields
  cases toks with
  | nil => grind
  | cons fst os =>
    rw [operand] at pd
    split at pd
    · simp_all
    · split at pd
      · rename_i opens
        obtain ⟨_, _, _, inn, last⟩ := yields_of_bind pd
        obtain ⟨closing, _, _, done, same⟩ := yields_of_bind last
        cases same
        obtain ⟨rfl, closes⟩ := yields_expect_cases done
        grind
      · cases pd

end Parsers

mutual

/-- The tokens that the parser takes are an expression, whatever follows them. -/
theorem expression_sound {fi : Token} {toks rest : List Token} {t : Term}
    (yields : Yields (expression fi toks) t rest) : ∃ fr, toks = fr ++ rest ∧ Expression fr t := by
  have shorter : rest.length < toks.length := yields.1
  rcases yields_expression_cases yields with
    ⟨xs, b, inn, found, pd, rfl⟩ | ⟨f, mid, fst, row⟩
  · have smaller := length_lt_of_heading? found
    obtain ⟨fr, rfl, heads⟩ := heading?_sound found
    obtain ⟨bk, rfl, expr⟩ := expression_sound pd
    exact ⟨fr ++ bk, (List.append_assoc ..).symm, .abstraction (heads expr)⟩
  · have smaller : mid.length < toks.length := fst.1
    obtain ⟨fr, rfl, opd⟩ := operand_sound fst
    obtain ⟨bk, rfl, expr⟩ := operands_sound (.single opd) row
    grind
termination_by 2 * toks.length + 1

theorem operands_sound {fi : Token} {bef toks rest : List Token} {f t : Term} (row : Row bef f)
    (yields : Yields (operands fi f toks) t rest) :
    ∃ fr, toks = fr ++ rest ∧ Expression (bef ++ fr) t := by
  rcases yields_operands_cases yields with
    ⟨xs, b, inn, found, pd, rfl⟩ | ⟨arg, mid, next, os⟩ | ⟨rfl, rfl⟩
  · have smaller := length_lt_of_heading? found
    obtain ⟨fr, rfl, heads⟩ := heading?_sound found
    obtain ⟨bk, rfl, expr⟩ := expression_sound pd
    exact ⟨fr ++ bk, (List.append_assoc ..).symm, .applied row (heads expr)⟩
  · have smaller : mid.length < toks.length := next.1
    obtain ⟨fr, rfl, opd⟩ := operand_sound next
    obtain ⟨bk, rfl, expr⟩ := operands_sound (.more row opd) os
    grind
  · exact ⟨[], rfl, (List.append_nil bef).symm ▸ .row row⟩
termination_by 2 * toks.length + 1

theorem operand_sound {fi : Token} {toks rest : List Token} {t : Term}
    (yields : Yields (operand fi toks) t rest) : ∃ fr, toks = fr ++ rest ∧ Operand fr t := by
  rcases yields_operand_cases yields with
    ⟨tok, rfl, x, rfl⟩ | ⟨opening, inn, closing, rfl, opens, closes, pd⟩
  · exact ⟨[tok], rfl, .name x⟩
  · obtain ⟨b, rfl, expr⟩ := expression_sound pd
    exact ⟨opening :: (b ++ [closing]), by simp, .parenthesised opens expr closes⟩
termination_by 2 * toks.length

end

end CallByNeed.Source
