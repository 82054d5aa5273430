import CallByNeed.Text.Blank

/-!
# Integers in text

An integer is a row of decimal digits of any script, with an optional sign
before it, single underscores between digits and blanks around it.  The four
information separators are no blanks here.
-/

namespace CallByNeed.Number

/-- The code point of the zero of each set of ten decimal digits. -/
def zeroDigits : List Nat :=
  [0x30, 0x660, 0x6F0, 0x7C0, 0x966, 0x9E6, 0xA66, 0xAE6, 0xB66, 0xBE6, 0xC66, 0xCE6,
   0xD66, 0xDE6, 0xE50, 0xED0, 0xF20, 0x1040, 0x1090, 0x17E0, 0x1810, 0x1946, 0x19D0,
   0x1A80, 0x1A90, 0x1B50, 0x1BB0, 0x1C40, 0x1C50, 0xA620, 0xA8D0, 0xA900, 0xA9D0,
   0xA9F0, 0xAA50, 0xABF0, 0xFF10, 0x104A0, 0x10D30, 0x11066, 0x110F0, 0x11136,
   0x111D0, 0x112F0, 0x11450, 0x114D0, 0x11650, 0x116C0, 0x11730, 0x118E0, 0x11950,
   0x11C50, 0x11D50, 0x11DA0, 0x16A60, 0x16AC0, 0x16B50, 0x1D7CE, 0x1D7D8, 0x1D7E2,
   0x1D7EC, 0x1D7F6, 0x1E140, 0x1E2F0, 0x1E950, 0x1FBF0]

def digit? (char : Char) : Option Nat :=
  (zeroDigits.find? fun first => first ≤ char.toNat && char.toNat < first + 10).map
    (char.toNat - ·)

/-- The digits of a number.  Between two of them there can be one underscore;
`bare` says that a digit has to come next. -/
def digits? (bare : Bool) : List Char → Option (List Nat)
  | [] => if bare then none else some []
  | char :: rest =>
    if char = '_' then if bare then none else digits? true rest
    else do
      let digit ← digit? char
      let others ← digits? false rest
      some (digit :: others)

def mostDigits : Nat := 4300

def natural? (text : List Char) : Option Nat := do
  let digits ← digits? true text
  if mostDigits < digits.length then none
  some (digits.foldl (fun number digit => 10 * number + digit) 0)

/-- Whether a character can stand around a number. -/
def surrounds (char : Char) : Bool :=
  Text.isBlank char && !(0x1C ≤ char.toNat && char.toNat ≤ 0x1F)

def withoutBlanks (text : List Char) : List Char :=
  ((text.dropWhile surrounds).reverse.dropWhile surrounds).reverse

def integer? (text : String) : Option Int :=
  match withoutBlanks text.toList with
  | '-' :: rest => (natural? rest).map fun number => -(number : Int)
  | '+' :: rest => (natural? rest).map Int.ofNat
  | rest => (natural? rest).map Int.ofNat

end CallByNeed.Number
