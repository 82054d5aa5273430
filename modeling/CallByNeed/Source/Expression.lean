import CallByNeed.Source.Fault
import CallByNeed.Term

/-!
# Expressions

An expression is a row of operands, each a name or an expression between
parentheses, and the last one may be an abstraction.  A row associates to the
left and the body of an abstraction reaches as far right as it can.

Parsers take the tokens that are left and give back fewer of them, which is
why they end.  `final` is the mark behind the last token.
-/

namespace CallByNeed.Source

/-- A parsed value and the tokens after it, fewer than `bound`. -/
structure Parsed (α : Type) (bound : Nat) where
  value : α
  rest : List Token
  shorter : rest.length < bound

/-- The result of a parser on tokens of which there are at most `bound - 1`. -/
abbrev Parse (α : Type) (bound : Nat) := Except Objection (Parsed α bound)

/-- Two parts give a result when the first one does, and the second one on it. -/
theorem ok_of_bind {ε α β : Type} {first : Except ε α} {next : α → Except ε β} {result : β}
    (done : first >>= next = .ok result) :
    ∃ middle, first = .ok middle ∧ next middle = .ok result := by
  cases first with
  | error error => cases done
  | ok middle => exact ⟨middle, rfl, done⟩

/-- A complaint about the next token. -/
def objection (final : Token) (tokens : List Token) (complaint : Complaint) : Objection :=
  ⟨complaint, tokens.headD final⟩

/-- The next token, when it is of the kind that is wanted. -/
def expect (final : Token) (kind : TokenKind) (what : Wanted) (tokens : List Token) :
    Parse Token tokens.length :=
  match tokens with
  | [] => .error (objection final [] (.wanted what))
  | token :: rest =>
    if token.kind = kind then .ok ⟨token, rest, Text.length_lt_of_cons token rest⟩
    else .error ⟨.wanted what, token⟩

/-- The next token is the one spelling of its kind. -/
def expectSymbol (final : Token) (kind : TokenKind) (tokens : List Token) :
    Parse Token tokens.length :=
  expect final kind (.symbol kind) tokens

/-- The rest of a parameter list behind its opening parenthesis, up to the
arrow. -/
def parameters? : List Token → Option (List Name × List Token)
  | parameter :: mark :: rest =>
    if parameter.kind ≠ .name then none
    else if mark.kind = .comma then
      (parameters? rest).map fun (names, body) => (parameter.text :: names, body)
    else if mark.kind = .closeParen then
      match rest with
      | arrow :: body =>
        if arrow.kind = .arrow then some ([parameter.text], body) else none
      | [] => none
    else none
  | _ => none

/-- The parameters of the abstraction that starts here, if one does, and the
tokens of its body. -/
def heading? : List Token → Option (List Name × List Token)
  | [] => none
  | first :: rest =>
    if first.kind = .name then
      match rest with
      | arrow :: body =>
        if arrow.kind = .arrow then some ([first.text], body) else none
      | [] => none
    else if first.kind = .openParen then parameters? rest
    else none

theorem length_lt_of_parameters? {tokens body : List Token} {names : List Name}
    (found : parameters? tokens = some (names, body)) :
    body.length < tokens.length := by
  fun_induction parameters? tokens generalizing names body with
  | case1 | case4 | case5 | case6 | case7 => simp at found
  | case2 parameter mark rest _ _ ih =>
    simp only [Option.map_eq_some_iff, Prod.mk.injEq, Prod.exists] at found
    obtain ⟨_, _, inner, _, rfl⟩ := found
    have := ih inner
    simp only [List.length_cons]
    omega
  | case3 =>
    simp only [Option.some.injEq, Prod.mk.injEq] at found
    obtain ⟨_, rfl⟩ := found
    simp only [List.length_cons]
    omega

theorem length_lt_of_heading? {tokens body : List Token} {names : List Name}
    (found : heading? tokens = some (names, body)) :
    body.length < tokens.length := by
  fun_cases heading? tokens with
  | case1 | case3 | case4 | case6 => simp_all [heading?]
  | case2 =>
    simp_all only [heading?, if_true, Option.some.injEq, Prod.mk.injEq]
    obtain ⟨_, rfl⟩ := found
    simp only [List.length_cons]
    omega
  | case5 =>
    simp_all only [heading?, if_true, if_false]
    have := length_lt_of_parameters? found
    simp only [List.length_cons]
    omega

mutual

def expression (final : Token) (tokens : List Token) : Parse Term tokens.length :=
  match found : heading? tokens with
  | some (parameters, body) => do
      have smaller := length_lt_of_heading? found
      let inner ← expression final body
      .ok ⟨Term.lambdas parameters inner.value, inner.rest,
        Nat.lt_trans inner.shorter smaller⟩
  | none => do
      let function ← operand final tokens
      have smaller := function.shorter
      let row ← operands final function.value function.rest
      .ok ⟨row.value, row.rest,
        Nat.lt_of_lt_of_le row.shorter (Nat.succ_le_of_lt smaller)⟩
termination_by 2 * tokens.length + 1

def operands (final : Token) (function : Term) (tokens : List Token) :
    Parse Term (tokens.length + 1) :=
  match found : heading? tokens with
  | some (parameters, body) => do
      have smaller := length_lt_of_heading? found
      let inner ← expression final body
      .ok ⟨.app function (Term.lambdas parameters inner.value), inner.rest,
        Nat.lt_succ_of_lt (Nat.lt_trans inner.shorter smaller)⟩
  | none =>
    if [TokenKind.name, .openParen].contains (tokens.headD final).kind then do
      let argument ← operand final tokens
      have smaller := argument.shorter
      let row ← operands final (.app function argument.value) argument.rest
      .ok ⟨row.value, row.rest, Nat.lt_trans row.shorter (Nat.succ_lt_succ smaller)⟩
    else .ok ⟨function, tokens, Nat.lt_succ_self tokens.length⟩
termination_by 2 * tokens.length + 1

/-- A name, or an expression between parentheses. -/
def operand (final : Token) (tokens : List Token) : Parse Term tokens.length :=
  match tokens with
  | [] => .error (objection final [] (.wanted .expression))
  | token :: rest =>
    if token.kind = .name then
      .ok ⟨.var token.text, rest, Text.length_lt_of_cons token rest⟩
    else if token.kind = .openParen then do
      let inner ← expression final rest
      let closing ← expectSymbol final .closeParen inner.rest
      .ok ⟨inner.value, closing.rest,
        Nat.lt_succ_of_lt (Nat.lt_trans closing.shorter inner.shorter)⟩
    else .error ⟨.wanted .expression, token⟩
termination_by 2 * tokens.length

end

end CallByNeed.Source
