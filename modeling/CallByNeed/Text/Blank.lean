/-!
# Blank characters

A character is blank when the Unicode standard gives it the `White_Space`
property, or when it is one of the four information separators `U+001C` to
`U+001F`.  Blank characters separate tokens and are trimmed from lines.
-/

namespace CallByNeed.Text

/-- The blank characters as increasing ranges, both ends included. -/
def blankRanges : List (Nat × Nat) :=
  [(0x09, 0x0D), (0x1C, 0x20), (0x85, 0x85), (0xA0, 0xA0), (0x1680, 0x1680),
   (0x2000, 0x200A), (0x2028, 0x2029), (0x202F, 0x202F), (0x205F, 0x205F),
   (0x3000, 0x3000)]

def isBlank (char : Char) : Bool :=
  blankRanges.any fun range => range.1 ≤ char.toNat && char.toNat ≤ range.2

def trimLeft (text : List Char) : List Char :=
  text.dropWhile isBlank

def trimRight (text : List Char) : List Char :=
  (text.reverse.dropWhile isBlank).reverse

def trim (text : List Char) : List Char :=
  trimRight (trimLeft text)

def trimmed (text : String) : String :=
  String.ofList (trim text.toList)

end CallByNeed.Text
