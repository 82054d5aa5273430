import CallByNeed.Source.Token
import CallByNeed.Text.Quoted

/-!
# Syntax errors

A syntax error is a message about a stretch of one source line.  The parser
objects to a token; `Objection.fault` finds the line on which it stands.
-/

namespace CallByNeed.Source

/-- A message about the characters from `start` up to `stop` of a line. -/
structure ParseFault where
  message : String
  source : String
  line : Nat
  start : Nat
  stop : Nat
deriving DecidableEq, Repr

/-- What the parser wanted at a token. -/
inductive Wanted where
  | symbol (kind : TokenKind)
  | name
  | modulePath
  | expression
deriving DecidableEq, Repr

def Wanted.text : Wanted → String
  | .symbol kind => Text.quoted kind.word
  | .name => "a name"
  | .modulePath => "a quoted module path"
  | .expression => "an expression"

/-- What is wrong with a token. -/
inductive Complaint where
  | wanted (what : Wanted)
  | wantedFrom
  | wantedStatement
  | leftover
deriving DecidableEq, Repr

structure Objection where
  complaint : Complaint
  token : Token
deriving DecidableEq, Repr

/-- A token as a message names it. -/
def Token.found (token : Token) : String :=
  if token.text.isEmpty then "end of input" else token.text

def Objection.message (objection : Objection) : String :=
  match objection.complaint with
  | .wanted what =>
    "expected " ++ what.text ++ " but found '" ++ objection.token.found ++ "'"
  | .wantedFrom => "expected 'from'"
  | .wantedStatement => "expected an import or a binding"
  | .leftover => "unexpected '" ++ objection.token.text ++ "'"

/-- An objection as a message about the lines of a text.  At the end of the
text it points behind the last character. -/
def Objection.fault (lines : List String) (objection : Objection) : ParseFault :=
  let token := objection.token
  { message := objection.message
    source := lines.getD (token.line - 1) ""
    line := token.line
    start := token.column
    stop := token.column + max token.text.length 1 }

def StrayCharacter.fault (stray : StrayCharacter) : ParseFault :=
  { message := "unexpected character"
    source := stray.source
    line := stray.line
    start := stray.column
    stop := stray.column + 1 }

end CallByNeed.Source
