import CallByNeed.Source.Expression

/-!
# Imports, bindings and modules

A module is a sequence of imports and bindings, each ended by a semicolon.  An
entry typed into the shell is an import, a binding or an expression, and its
semicolon can be left out.
-/

namespace CallByNeed.Source

/-- An imported name and the name it is given here. -/
structure ImportItem where
  name : Name
  localName : Name
deriving DecidableEq, Repr

/-- An import of names from a module, with the line it starts on. -/
structure Import where
  items : List ImportItem
  source : String
  line : Nat
deriving DecidableEq, Repr

/-- A binding of a name to a term, with the line it starts on. -/
structure Binding where
  name : Name
  term : Term
  line : Nat
deriving DecidableEq, Repr

inductive Statement where
  | imports (statement : Import)
  | binds (binding : Binding)
deriving DecidableEq, Repr

inductive Entry where
  | imports (statement : Import)
  | binds (binding : Binding)
  | expression (term : Term)
deriving DecidableEq, Repr

/-- A module that is parsed but not linked: its imports and its bindings, each
in source order. -/
structure ParsedModule where
  id : String
  path : String
  imports : List Import
  bindings : List Binding
deriving DecidableEq, Repr

def Token.isKeyword (token : Token) (word : String) : Bool :=
  token.kind = .keyword && token.text = word

def startsImport : List Token → Bool
  | [] => false
  | token :: _ => token.isKeyword "import" || token.isKeyword "use"

def startsBinding : List Token → Bool
  | name :: equals :: _ => name.kind = .name && equals.kind = .equals
  | _ => false

def importItem (final : Token) (tokens : List Token) : Parse ImportItem tokens.length := do
  let name ← expect final .name .name tokens
  match split : name.rest with
  | [] => .ok ⟨⟨name.value.text, name.value.text⟩, [], split ▸ name.shorter⟩
  | token :: rest =>
    have smaller : rest.length < tokens.length :=
      Nat.lt_of_succ_lt (split ▸ name.shorter : (token :: rest).length < tokens.length)
    if token.isKeyword "as" then
      let renamed ← expect final .name .name rest
      .ok ⟨⟨name.value.text, renamed.value.text⟩, renamed.rest,
        Nat.lt_trans renamed.shorter smaller⟩
    else
      .ok ⟨⟨name.value.text, name.value.text⟩, token :: rest, split ▸ name.shorter⟩

/-- The items of an import list, which commas separate. -/
def importItems (final : Token) (tokens : List Token) :
    Parse (List ImportItem) tokens.length := do
  let first ← importItem final tokens
  match split : first.rest with
  | [] => .ok ⟨[first.value], [], split ▸ first.shorter⟩
  | token :: rest =>
    have smaller : rest.length < tokens.length :=
      Nat.lt_of_succ_lt (split ▸ first.shorter : (token :: rest).length < tokens.length)
    if token.kind = .comma then
      let others ← importItems final rest
      .ok ⟨first.value :: others.value, others.rest,
        Nat.lt_trans others.shorter smaller⟩
    else .ok ⟨[first.value], token :: rest, split ▸ first.shorter⟩
termination_by tokens.length

def expectFrom (final : Token) (tokens : List Token) : Parse Token tokens.length :=
  match tokens with
  | [] => .error (objection final [] .wantedFrom)
  | token :: rest =>
    if token.isKeyword "from" then .ok ⟨token, rest, Text.length_lt_of_cons token rest⟩
    else .error ⟨.wantedFrom, token⟩

/-- A quoted text without its quotes. -/
def unquoted (text : String) : String :=
  String.ofList ((text.toList.drop 1).dropLast)

/-- An import without the semicolon, behind its first word. -/
def importBody (final : Token) (line : Nat) (tokens : List Token) :
    Parse Import tokens.length := do
  let opening ← expectSymbol final .openBrace tokens
  let items ← importItems final opening.rest
  let closing ← expectSymbol final .closeBrace items.rest
  let word ← expectFrom final closing.rest
  let path ← expect final .string .modulePath word.rest
  .ok ⟨⟨items.value, unquoted path.value.text, line⟩, path.rest,
    Nat.lt_trans path.shorter <| Nat.lt_trans word.shorter <|
      Nat.lt_trans closing.shorter <| Nat.lt_trans items.shorter opening.shorter⟩

/-- A binding without the semicolon, behind its name. -/
def bindingBody (final : Token) (name : Token) (tokens : List Token) :
    Parse Binding tokens.length := do
  let equals ← expectSymbol final .equals tokens
  let term ← expression final equals.rest
  .ok ⟨⟨name.text, term.value, name.line⟩, term.rest,
    Nat.lt_trans term.shorter equals.shorter⟩

/-- A parsed value that a semicolon ends. -/
def terminated {α : Type} {bound : Nat} (final : Token) (parsed : Parsed α bound) :
    Parse α bound := do
  let semicolon ← expectSymbol final .semicolon parsed.rest
  .ok ⟨parsed.value, semicolon.rest, Nat.lt_trans semicolon.shorter parsed.shorter⟩

/-- The tokens behind a semicolon, if one is next. -/
def skipSemicolon : List Token → List Token
  | [] => []
  | token :: rest => if token.kind = .semicolon then rest else token :: rest

def statement (final : Token) (tokens : List Token) : Parse Statement tokens.length :=
  match tokens with
  | [] => .error (objection final [] .wantedStatement)
  | first :: rest =>
    if startsImport (first :: rest) then do
      let parsed ← importBody final first.line rest
      let done ← terminated final parsed
      .ok ⟨.imports done.value, done.rest, Nat.lt_succ_of_lt done.shorter⟩
    else if startsBinding (first :: rest) then do
      let parsed ← bindingBody final first rest
      let done ← terminated final parsed
      .ok ⟨.binds done.value, done.rest, Nat.lt_succ_of_lt done.shorter⟩
    else .error ⟨.wantedStatement, first⟩

def statements (final : Token) : List Token → Except Objection (List Statement)
  | [] => .ok []
  | first :: rest => do
      let head ← statement final (first :: rest)
      let tail ← statements final head.rest
      .ok (head.value :: tail)
termination_by tokens => tokens.length
decreasing_by exact head.shorter

/-- An entry and the tokens after it. -/
def entryBody (final : Token) (tokens : List Token) :
    Except Objection (Entry × List Token) :=
  match tokens with
  | [] => (expression final []).map fun parsed => (.expression parsed.value, parsed.rest)
  | first :: rest =>
    if startsImport (first :: rest) then
      (importBody final first.line rest).map fun parsed =>
        (.imports parsed.value, parsed.rest)
    else if startsBinding (first :: rest) then
      (bindingBody final first rest).map fun parsed =>
        (.binds parsed.value, parsed.rest)
    else
      (expression final (first :: rest)).map fun parsed =>
        (.expression parsed.value, parsed.rest)

/-- Nothing is left. -/
def expectEnd : List Token → Except Objection Unit
  | [] => .ok ()
  | token :: _ => .error ⟨.leftover, token⟩

/-- The result of a parser on a whole text. -/
def parseText {α : Type} (parser : Token → List Token → Except Objection α)
    (text : String) : Except ParseFault α :=
  match scan text with
  | .error stray => .error stray.fault
  | .ok scanned => (parser scanned.final scanned.tokens).mapError (Objection.fault scanned.lines)

def parseTerm : String → Except ParseFault Term :=
  parseText fun final tokens => do
    let parsed ← expression final tokens
    expectEnd parsed.rest
    .ok parsed.value

def parseEntry : String → Except ParseFault Entry :=
  parseText fun final tokens => do
    let (entry, rest) ← entryBody final tokens
    expectEnd (skipSemicolon rest)
    .ok entry

def Statement.import? : Statement → Option Import
  | .imports statement => some statement
  | .binds _ => none

def Statement.binding? : Statement → Option Binding
  | .imports _ => none
  | .binds binding => some binding

/-- The first of two texts that is not empty, or the second one. -/
def firstNonempty (text other : String) : String :=
  if text.isEmpty then other else text

/-- The module that a text is.  An empty path is replaced by the id, and then
an empty id by the path. -/
def parseModule (text id path : String) : Except ParseFault ParsedModule :=
  let path := firstNonempty path id
  (parseText statements text).map fun parsed =>
    { id := firstNonempty id path
      path
      imports := parsed.filterMap Statement.import?
      bindings := parsed.filterMap Statement.binding? }

end CallByNeed.Source
