import CallByNeed.Text.Blank
import CallByNeed.Text.Lines

/-!
# Tokens

`scan` cuts a source text into tokens.  Lines are scanned one by one, blanks
between tokens are skipped, and a line whose first character that is not blank
is `#` is a comment and gives no token.  Each token is as long as it can be.
A text is refused at the first character that starts no token.
-/

namespace CallByNeed.Source

inductive TokenKind where
  | name
  | keyword
  | string
  | arrow
  | equals
  | semicolon
  | comma
  | openParen
  | closeParen
  | openBrace
  | closeBrace
  | endOfInput
deriving DecidableEq, Repr, Inhabited

/-- The word for a kind of token.  Tokens of one spelling are called by it. -/
def TokenKind.word : TokenKind → String
  | .name => "name"
  | .keyword => "keyword"
  | .string => "string"
  | .arrow => "=>"
  | .equals => "="
  | .semicolon => ";"
  | .comma => ","
  | .openParen => "("
  | .closeParen => ")"
  | .openBrace => "\x7b"
  | .closeBrace => "\x7d"
  | .endOfInput => "eof"

/-- A token with the line it stands on, counted from one, and the number of
characters before it on that line. -/
structure Token where
  kind : TokenKind
  text : String
  line : Nat
  column : Nat
deriving DecidableEq, Repr, Inhabited

/-- The words that are not names. -/
def keywords : List String :=
  ["import", "use", "from", "as"]

def startsName (char : Char) : Bool :=
  char.isAlpha || char = '_'

def continuesName (char : Char) : Bool :=
  char.isAlphanum || ['_', '\'', '?', '!'].contains char

def wordKind (word : String) : TokenKind :=
  if keywords.contains word then .keyword else .name

/-- The kind of a token that is one punctuation mark. -/
def markKind? : Char → Option TokenKind
  | '=' => some .equals
  | ';' => some .semicolon
  | ',' => some .comma
  | '(' => some .openParen
  | ')' => some .closeParen
  | '{' => some .openBrace
  | '}' => some .closeBrace
  | _ => none

/-- The token at the front of a text, as its kind and characters, with the
text after it. -/
structure Lexeme (text : List Char) where
  kind : TokenKind
  chars : List Char
  rest : List Char
  shorter : rest.length < text.length

/-- The longest token that a text starts with. -/
def lexeme? : (text : List Char) → Option (Lexeme text)
  | [] => none
  | '=' :: '>' :: rest =>
    some ⟨.arrow, ['=', '>'], rest, Nat.lt_succ_of_lt (Text.length_lt_of_cons '>' rest)⟩
  | '"' :: rest =>
    match split : rest.dropWhile (· ≠ '"') with
    | [] => none
    | _ :: after =>
      some ⟨.string, '"' :: rest.takeWhile (· ≠ '"') ++ ['"'], after,
        Nat.lt_succ_of_lt (Text.length_lt_of_dropWhile split)⟩
  | char :: rest =>
    if startsName char then
      let chars := char :: rest.takeWhile continuesName
      some ⟨wordKind (String.ofList chars), chars, rest.dropWhile continuesName,
        Nat.lt_succ_of_le (List.dropWhile_suffix continuesName).length_le⟩
    else
      (markKind? char).map fun kind =>
        ⟨kind, [char], rest, Text.length_lt_of_cons char rest⟩

/-- The tokens of one line from a column on, or the column of the first
character that starts none. -/
def scanLine (line column : Nat) : List Char → Except Nat (List Token)
  | [] => .ok []
  | char :: rest =>
    if Text.isBlank char then scanLine line (column + 1) rest
    else
      match lexeme? (char :: rest) with
      | none => .error column
      | some lexeme => do
          let tokens ← scanLine line (column + lexeme.chars.length) lexeme.rest
          .ok (⟨lexeme.kind, String.ofList lexeme.chars, line, column⟩ :: tokens)
termination_by text => text.length
decreasing_by
  · exact Text.length_lt_of_cons char rest
  · exact lexeme.shorter

/-- Whether a line is a comment: its first character that is not blank is
`#`. -/
def isComment (line : String) : Bool :=
  (Text.trimLeft line.toList).head? = some '#'

/-- A character that starts no token: its line, the number of that line and
the column. -/
structure StrayCharacter where
  source : String
  line : Nat
  column : Nat
deriving DecidableEq, Repr

/-- The tokens of the lines from the given number on. -/
def scanLines (number : Nat) : List String → Except StrayCharacter (List Token)
  | [] => .ok []
  | line :: lines =>
    if isComment line then scanLines (number + 1) lines
    else
      match scanLine number 0 line.toList with
      | .error column => .error ⟨line, number, column⟩
      | .ok tokens => (scanLines (number + 1) lines).map (tokens ++ ·)

/-- The mark behind the last character of a text. -/
def endMark (lines : List String) : Token :=
  ⟨.endOfInput, "", lines.length, (lines.getLastD "").length⟩

/-- A text cut into lines and tokens. -/
structure Scanned where
  lines : List String
  tokens : List Token
deriving Repr

def Scanned.final (scanned : Scanned) : Token :=
  endMark scanned.lines

/-- The tokens of a text, without the mark at its end. -/
def scan (text : String) : Except StrayCharacter Scanned :=
  let lines := Text.lines text
  (scanLines 1 lines).map (Scanned.mk lines)

end CallByNeed.Source
