import CallByNeed.Number.Integer

/-!
# Layouts

A layout says how a text stands in its slot: what fills it up to which width,
on which side the text stands, and after how many characters it is cut.  The
marks that only numbers can have are read as well, and refused.
-/

namespace CallByNeed.Text

inductive LayoutFault where
  /-- A number is too large. -/
  | tooManyDigits
  /-- A point without a number behind it. -/
  | noPrecision
  /-- Two marks that separate digits. -/
  | twoSeparators
  /-- A mark that separates digits, with a kind that has none. -/
  | separated (separator kind : Char)
  /-- More than a layout. -/
  | notALayout (layout : String)
  | unknownKind (kind : Char)
  | signed
  | spaced
  | zeroCoerced
  | alternate
  | paddedInside
deriving DecidableEq, Repr

/-- The largest number that a template can hold. -/
def largestNumber : Nat := Nat.pow 2 63 - 1

/-- The number whose digits are those of `number` and then those with which a
text starts, and what follows them. -/
def leadingNumber (number : Option Nat) :
    List Char → Except LayoutFault (Option Nat × List Char)
  | [] => .ok (number, [])
  | char :: rest =>
    match Number.digit? char with
    | none => .ok (number, char :: rest)
    | some digit =>
      let longer := 10 * number.getD 0 + digit
      if longer > largestNumber then .error .tooManyDigits
      else leadingNumber (some longer) rest

/-- On which side of its field a text stands. -/
inductive Alignment where
  | left
  | right
  | middle
  /-- Filled up behind the sign, which a text does not have. -/
  | inside
deriving DecidableEq, Repr

def Alignment.ofChar? : Char → Option Alignment
  | '<' => some .left
  | '>' => some .right
  | '^' => some .middle
  | '=' => some .inside
  | _ => none

structure Layout where
  filling : Char
  alignment : Alignment
  width : Nat
  precision : Option Nat
deriving DecidableEq, Repr

namespace Layout

/-- Takes a mark away from the start of a layout, if it is there. -/
def takeMark (isMark : Char → Bool) : List Char → Option Char × List Char
  | [] => (none, [])
  | char :: rest => if isMark char then (some char, rest) else (none, char :: rest)

/-- Takes the filling and the alignment away from the start of a layout. -/
def takeAlignment : List Char → Option Char × Option Alignment × List Char
  | [] => (none, none, [])
  | char :: rest =>
    match rest.head?.bind Alignment.ofChar? with
    | some alignment => (some char, some alignment, rest.tail)
    | none =>
      match Alignment.ofChar? char with
      | some alignment => (none, some alignment, rest)
      | none => (none, none, char :: rest)

/-- Takes a point with the number behind it away from the start of a layout. -/
def takePrecision (text : List Char) :
    Except LayoutFault (Option Nat × List Char) :=
  match text with
  | '.' :: rest => do
      let (precision, rest) ← leadingNumber none rest
      if precision.isNone then throw .noPrecision
      return (precision, rest)
  | text => .ok (none, text)

/-- Whether the digits of numbers of a kind can be separated. -/
def isSeparable (separator kind : Char) : Bool :=
  ['d', 'e', 'f', 'g', 'E', 'G', '%', 'F', '\x00'].contains kind
    || (separator = '_' && ['b', 'o', 'x', 'X'].contains kind)

/-- Refuses the marks that a text cannot have. -/
def refuseMarks (sign zero hash : Option Char) (alignment : Option Alignment) :
    Except LayoutFault Unit := do
  if sign = some ' ' then throw .spaced
  if sign.isSome then throw .signed
  if zero.isSome then throw .zeroCoerced
  if hash.isSome then throw .alternate
  if alignment = some .inside then throw .paddedInside

/-- Reads a layout: filling and alignment, sign, the marks of zeros and of
other forms, a zero that fills, width, separator, precision and kind, each of
which can be left out. -/
def parse (text : List Char) : Except LayoutFault Layout := do
  let (filling, alignment, rest) := takeAlignment text
  let (sign, rest) := takeMark [' ', '+', '-'].contains rest
  let (zero, rest) := takeMark (· = 'z') rest
  let (hash, rest) := takeMark (· = '#') rest
  let (zeros, rest) := takeMark (fun char => filling.isNone && char = '0') rest
  let (width, rest) ← leadingNumber none rest
  let (comma, rest) := takeMark (· = ',') rest
  let (underscore, rest) := takeMark (· = '_') rest
  if underscore.isSome && (comma.isSome || rest.head? = some ',') then
    throw .twoSeparators
  let (precision, rest) ← takePrecision rest
  if rest.length > 1 then throw (.notALayout (String.ofList text))
  let kind := rest.headD 's'
  match comma <|> underscore with
  | some separator =>
    if !isSeparable separator kind then throw (.separated separator kind)
  | none => pure ()
  if kind ≠ 's' then throw (.unknownKind kind)
  refuseMarks sign zero hash alignment
  return ⟨(filling <|> zeros).getD ' ', alignment.getD .left, width.getD 0, precision⟩

/-- How many fillings stand before a text, of those that it needs. -/
def leading (alignment : Alignment) (missing : Nat) : Nat :=
  match alignment with
  | .right => missing
  | .middle => missing / 2
  | _ => 0

def apply (layout : Layout) (text : List Char) : List Char :=
  let shown := match layout.precision with
    | some precision => text.take precision
    | none => text
  let missing := layout.width - shown.length
  let before := leading layout.alignment missing
  List.replicate before layout.filling ++ shown
    ++ List.replicate (missing - before) layout.filling

end Layout

end CallByNeed.Text
