import CallByNeed.Text.Printable
import CallByNeed.Text.Lines

/-!
# Quoted text

Texts are quoted with single quotes, or with double quotes when they hold a
single quote and no double one.  The quote itself, the backslash and every
character that is not printable are written as escapes.
-/

namespace CallByNeed.Text

/-- A number in hexadecimal, with at least `width` digits. -/
def hexadecimal (width number : Nat) : String :=
  let digits := Nat.toDigits 16 number
  String.ofList (List.replicate (width - digits.length) '0' ++ digits)

/-- The escape of a character by its code point, in the shortest of the three
widths that holds it. -/
def codeEscape (char : Char) : String :=
  if char.toNat ≤ 0xFF then "\\x" ++ hexadecimal 2 char.toNat
  else if char.toNat ≤ 0xFFFF then "\\u" ++ hexadecimal 4 char.toNat
  else "\\U" ++ hexadecimal 8 char.toNat

/-- How a character is written between the given quotes. -/
def escaped (quote char : Char) : String :=
  if char = quote || char = '\\' then String.ofList ['\\', char]
  else if char = '\n' then "\\n"
  else if char = '\r' then "\\r"
  else if char = '\t' then "\\t"
  else if isPrintable char then String.singleton char
  else codeEscape char

/-- The quote that a text is put between. -/
def quoteFor (text : List Char) : Char :=
  if text.contains '\'' && !text.contains '"' then '"' else '\''

def quoted (text : String) : String :=
  let quote := quoteFor text.toList
  String.singleton quote
    ++ String.join (text.toList.map (escaped quote))
    ++ String.singleton quote

/-- A list of texts: each one quoted, between brackets. -/
def quotedList (texts : List String) : String :=
  "[" ++ String.intercalate ", " (texts.map quoted) ++ "]"

end CallByNeed.Text
