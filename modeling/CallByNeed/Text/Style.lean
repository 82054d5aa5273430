import CallByNeed.Text.Template

/-!
# Styles

Messages are printed in bold, some of them in a colour.  How that is done is
up to the host, which also says what templates find in a text.
-/

namespace CallByNeed.Text

inductive Colour where
  | red
  | magenta
  | cyan
deriving DecidableEq, Repr

/-- How a host shows texts. -/
structure Style where
  /-- A text in bold, and in a colour if one is given. -/
  bold : Option Colour → String → String
  parts : Parts

namespace Style

/-- Every text is shown as it is. -/
def plain : Style := ⟨fun _ text => text, .nameless⟩

/-- The number that selects a colour in a terminal's escape sequence. -/
def code : Colour → String
  | .red => "31"
  | .magenta => "35"
  | .cyan => "36"

/-- The escape sequence that selects a rendition. -/
def rendition (code : String) : String :=
  "\x1b[" ++ code ++ "m"

/-- Texts are shown with the escape sequences of a terminal. -/
def terminal : Style where
  bold colour text :=
    rendition "1" ++ ((colour.map fun colour => rendition (code colour)).getD "") ++ text
      ++ rendition "0"
  parts := .nameless

/-- The style for a terminal with colours or without. -/
instance : Coe Bool Style := ⟨fun colours => if colours then terminal else plain⟩

end Style

end CallByNeed.Text
