/-!
# Lines and cuts

Texts are cut into lines at the newline character only, and lengths and
columns count characters.  `between` is the cut used by diagnoses: an end
that lies before the start of the text counts from its end, and an end
outside the text is moved to the nearest one inside it.
-/

namespace CallByNeed.Text

/-- The rest of a list is shorter than the list. -/
theorem length_lt_of_cons {α : Type} (head : α) (tail : List α) :
    tail.length < (head :: tail).length :=
  Nat.lt_succ_self tail.length

/-- What follows the place where a cut stopped is shorter than the text. -/
theorem length_lt_of_dropWhile {text after : List Char} {char : Char}
    {stays : Char → Bool} (split : text.dropWhile stays = char :: after) :
    after.length < text.length := by
  have shorter := (List.dropWhile_suffix (l := text) stays).length_le
  rw [split] at shorter
  exact shorter

/-- The pieces of a text between the occurrences of a separator.  There is
always one piece more than there are separators. -/
def splitAt (separator : Char) : List Char → List (List Char)
  | [] => [[]]
  | char :: rest =>
    if char = separator then [] :: splitAt separator rest
    else
      match splitAt separator rest with
      | [] => [[char]]
      | piece :: pieces => (char :: piece) :: pieces

/-- The lines of a text.  A text without newlines is one line. -/
def lines (text : String) : List String :=
  (splitAt '\n' text.toList).map String.ofList

/-- The position in a text of the given length that an index stands for. -/
def position (length : Nat) (index : Int) : Nat :=
  if index < 0 then (index + length).toNat else min index.toNat length

/-- The characters from `start` up to `stop`. -/
def between (text : String) (start stop : Int) : String :=
  let chars := text.toList
  let first := position chars.length start
  let last := position chars.length stop
  String.ofList ((chars.take last).drop first)

/-- The given number of copies of a character; none for a negative number. -/
def copies (count : Int) (char : Char) : String :=
  String.ofList (List.replicate count.toNat char)

/-- The text moved right by blanks until it has the given width. -/
def padLeft (width : Nat) (text : String) : String :=
  copies (width - text.length : Int) ' ' ++ text

/-- Line ends in files: a carriage return, with or without a newline after
it, ends a line just as a newline does. -/
def unifyLineEnds : List Char → List Char
  | [] => []
  | '\r' :: '\n' :: rest => '\n' :: unifyLineEnds rest
  | '\r' :: rest => '\n' :: unifyLineEnds rest
  | char :: rest => char :: unifyLineEnds rest

end CallByNeed.Text
