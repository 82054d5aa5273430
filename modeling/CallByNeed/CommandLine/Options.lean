import CallByNeed.Number.Integer
import CallByNeed.Text.Quoted

/-!
# Options of the command line

Options can stand anywhere.  A long option can be cut short as long as no
other one starts the same way, and short ones can be written together.  A
value can be written in one argument with its option.  The first row of other
arguments is the file and the bindings; any that stand after a later option
are refused.  All arguments after two dashes are taken as they are.
-/

namespace CallByNeed.CommandLine

open Text

inductive Flag where
  | help
  | directory
  | maxSteps
  | numerals
  | trace
  | check
deriving DecidableEq, Repr

namespace Flag

def all : List Flag :=
  [help, directory, maxSteps, numerals, trace, check]

def spellings : Flag → List String
  | help => ["-h", "--help"]
  | directory => ["-I", "--include"]
  | maxSteps => ["--max-steps"]
  | numerals => ["-n", "--numerals"]
  | trace => ["--trace"]
  | check => ["--check"]

def hasValue : Flag → Bool
  | directory => true
  | maxSteps => true
  | _ => false

def spelled : List (String × Flag) :=
  all.flatMap fun flag => flag.spellings.map (·, flag)

def find? (spelling : String) : Option Flag :=
  spelled.lookup spelling

/-- An option as messages name it. -/
def text (flag : Flag) : String :=
  String.intercalate "/" flag.spellings

end Flag

inductive UsageError where
  /-- They ask for help instead. -/
  | helpWanted
  | ambiguous (argument : String) (spellings : List String)
  | valueMissing (flag : Flag)
  | valueIgnored (flag : Flag) (value : String)
  | notAnInteger (flag : Flag) (value : String)
  | unrecognized (arguments : List String)
deriving DecidableEq, Repr

def UsageError.text : UsageError → String
  | .helpWanted => ""
  | .ambiguous argument spellings =>
    "ambiguous option: " ++ argument ++ " could match " ++ String.intercalate ", " spellings
  | .valueMissing flag => "argument " ++ flag.text ++ ": expected one argument"
  | .valueIgnored flag value =>
    "argument " ++ flag.text ++ ": ignored explicit argument " ++ quoted value
  | .notAnInteger flag value =>
    "argument " ++ flag.text ++ ": invalid int value: " ++ quoted value
  | .unrecognized arguments => "unrecognized arguments: " ++ String.intercalate " " arguments

/-- What an argument is on its own. -/
inductive Argument where
  | plain (text : String)
  /-- The two dashes after which all arguments are plain. -/
  | dashes
  /-- An option, by a long spelling or a letter, with what is attached to it:
  the text behind an equals sign or directly behind the letter. -/
  | option (flag : Flag) (long : Bool) (attached : Option String)
  | unknown (text : String)
deriving DecidableEq, Repr

/-- The argument as it was written, for those that are not options. -/
def Argument.written : Argument → String
  | .plain text => text
  | .dashes => "--"
  | .option flag _ _ => flag.text
  | .unknown text => text

/-- Cuts a text at its first equals sign. -/
def cutAtEquals (text : String) : String × Option String :=
  let chars := text.toList
  let before := String.ofList (chars.takeWhile (· ≠ '='))
  match chars.dropWhile (· ≠ '=') with
  | [] => (before, none)
  | _ :: value => (before, some (String.ofList value))

/-- A text without the one line break that it can end with. -/
def withoutBreak (chars : List Char) : List Char :=
  if chars.getLast? = some '\n' then chars.dropLast else chars

/-- Whether a text reads as a negative number: such arguments are plain. -/
def isNegativeNumber (chars : List Char) : Bool :=
  let isDigit (char : Char) := (Number.digit? char).isSome
  match withoutBreak chars with
  | '-' :: rest =>
    (!rest.isEmpty && rest.all isDigit)
      || (match rest.dropWhile isDigit with
          | '.' :: fraction => !fraction.isEmpty && fraction.all isDigit
          | _ => false)
  | _ => false

/-- An argument that starts with a dash and is no option. -/
def notAnOption (text : String) : Argument :=
  if isNegativeNumber text.toList || text.toList.contains ' ' then .plain text
  else .unknown text

/-- An argument that starts with two dashes, by the options whose long spelling
starts with it. -/
def classifyLong (text : String) : Except UsageError Argument :=
  let (start, value) := cutAtEquals text
  let matching := Flag.spelled.filter fun spelling => start.isPrefixOf spelling.1
  match matching with
  | [] => .ok (notAnOption text)
  | [(_, flag)] => .ok (.option flag true value)
  | _ => .error (.ambiguous text (matching.map Prod.fst))

/-- An argument that starts with one dash, by the letter after it. -/
def classifyShort (text : String) : Argument :=
  match Flag.find? (String.ofList (text.toList.take 2)) with
  | some flag => .option flag false (some (String.ofList (text.toList.drop 2)))
  | none => notAnOption text

/-- What an argument is, unless two dashes stand before it. -/
def classify (text : String) : Except UsageError Argument :=
  match text.toList with
  | '-' :: rest =>
    match Flag.find? text with
    | some flag => .ok (.option flag (rest.head? = some '-') none)
    | none =>
      if rest.isEmpty then .ok (.plain text)
      else
        match cutAtEquals text with
        | (spelling, some value) =>
          match Flag.find? spelling with
          | some flag => .ok (.option flag (rest.head? = some '-') (some value))
          | none =>
            if rest.head? = some '-' then classifyLong text
            else .ok (classifyShort text)
        | (_, none) =>
          if rest.head? = some '-' then classifyLong text
          else .ok (classifyShort text)
  | _ => .ok (.plain text)

def classifyAll : List String → Except UsageError (List Argument)
  | [] => .ok []
  | text :: texts =>
    if text = "--" then .ok (.dashes :: texts.map .plain)
    else do
      let first ← classify text
      let rest ← classifyAll texts
      .ok (first :: rest)

structure Options where
  file : Option String := none
  bindings : List String := []
  /-- The directories; one is missing where its value was taken away. -/
  directories : List (Option String) := []
  /-- The most steps of a request, or none. -/
  maxSteps : Option Int
  numerals : Bool := false
  trace : Bool := false
  check : Bool := false
deriving DecidableEq, Repr

/-- Options, and what is known of the other arguments. -/
structure Progress where
  options : Options
  /-- Whether the file and the bindings were taken. -/
  placed : Bool
  extras : List String
deriving DecidableEq, Repr

namespace Progress

def setFlag (progress : Progress) (flag : Flag) : Except UsageError Progress :=
  let options := progress.options
  match flag with
  | .help => .error .helpWanted
  | .numerals => .ok { progress with options := { options with numerals := true } }
  | .trace => .ok { progress with options := { options with trace := true } }
  | .check => .ok { progress with options := { options with check := true } }
  | _ => .ok progress

/-- A value of an option, which two dashes are not. -/
def givenValue (text : String) : Option String :=
  if text = "--" then none else some text

/-- The number of steps that a text stands for; zero is no limit. -/
def stepsOf (flag : Flag) (text : String) : Except UsageError (Option Int) :=
  match Number.integer? text with
  | some steps => .ok (if steps = 0 then none else some steps)
  | none => .error (.notAnInteger flag text)

def setValue (progress : Progress) (flag : Flag) (text : String) :
    Except UsageError Progress :=
  let options := progress.options
  match flag with
  | .directory =>
    let directories := options.directories ++ [givenValue text]
    .ok { progress with options := { options with directories } }
  | .maxSteps => do
      let maxSteps ← match givenValue text with
        | some text => stepsOf flag text
        | none => .ok none
      .ok { progress with options := { options with maxSteps } }
  | _ => progress.setFlag flag

/-- The first two dashes are not one of the arguments. -/
def withoutDashes (texts : List String) : List String :=
  texts.erase "--"

/-- How many arguments of a row belong to the file: the first plain one, with
the two dashes next to it. -/
def fileCount : List Argument → Nat
  | .dashes :: .plain _ :: _ => 2
  | .plain _ :: .dashes :: _ => 2
  | _ :: _ => 1
  | [] => 0

/-- Takes a row of arguments that are not options. -/
def place (progress : Progress) (row : List Argument) : Progress :=
  if progress.placed then
    { progress with extras := progress.extras ++ row.map Argument.written }
  else
    let count := fileCount row
    let file := withoutDashes ((row.take count).map Argument.written)
    let bindings := withoutDashes ((row.drop count).map Argument.written)
    { progress with
      placed := true
      options := { progress.options with file := file.head?, bindings } }

end Progress

/-- An option and the letters that are written together with it. -/
structure Bundle where
  flags : List Flag
  /-- The last option, if it still wants a value. -/
  wanting : Option Flag
  /-- The last option with the value that is written with it. -/
  valued : Option (Flag × String)
deriving DecidableEq, Repr

/-- The options that are written together in one argument behind the letter of
`flag`: the letters of options without a value, and then that of one with a
value and its value. -/
def unbundle (flag : Flag) : List Char → Except UsageError Bundle
  | [] => .ok (if flag.hasValue then ⟨[], some flag, none⟩ else ⟨[flag], none, none⟩)
  | letter :: rest =>
    if flag.hasValue then .ok ⟨[], none, some (flag, String.ofList (letter :: rest))⟩
    else
      match Flag.find? (String.ofList ['-', letter]) with
      | none => .error (.valueIgnored flag (String.ofList (letter :: rest)))
      | some next => do
          let bundle ← unbundle next rest
          .ok { bundle with flags := flag :: bundle.flags }

def optionBundle (flag : Flag) (long : Bool) (attached : Option String) :
    Except UsageError Bundle :=
  match attached with
  | none => unbundle flag []
  | some text =>
    if flag.hasValue then .ok ⟨[], none, some (flag, text)⟩
    else if long || text.isEmpty then .error (.valueIgnored flag text)
    else unbundle flag text.toList

/-- Takes the options of an argument, except for one that wants a value. -/
def Progress.takeBundle (progress : Progress) (bundle : Bundle) :
    Except UsageError Progress := do
  let progress ← bundle.flags.foldlM Progress.setFlag progress
  match bundle.valued with
  | some (flag, value) => progress.setValue flag value
  | none => .ok progress

def Argument.isPlain : Argument → Bool
  | .plain _ => true
  | .dashes => true
  | _ => false

def takeAll (progress : Progress) : List Argument → Except UsageError Progress
  | [] => .ok progress
  | .option flag long attached :: rest => do
      let bundle ← optionBundle flag long attached
      match bundle.wanting, rest with
      | none, rest =>
        let progress ← progress.takeBundle bundle
        takeAll progress rest
      | some wanting, .plain value :: rest =>
        let progress ← progress.takeBundle bundle
        let progress ← progress.setValue wanting value
        takeAll progress rest
      | some wanting, _ => .error (.valueMissing wanting)
  | .unknown text :: rest =>
    takeAll { progress with extras := progress.extras ++ [text] } rest
  | first :: rest =>
    let row := first :: rest.takeWhile Argument.isPlain
    takeAll (progress.place row) (rest.dropWhile Argument.isPlain)
termination_by arguments => arguments.length
decreasing_by
  all_goals simp only [List.length_cons]
  · omega
  · omega
  · omega
  · have := (List.dropWhile_suffix (l := rest) Argument.isPlain).length_le
    omega

/-- The options that arguments ask for. -/
def parse (maxSteps : Option Int) (arguments : List String) : Except UsageError Options := do
  let classified ← classifyAll arguments
  let progress ← takeAll ⟨{ maxSteps }, false, []⟩ classified
  if progress.extras.isEmpty then .ok progress.options
  else .error (.unrecognized progress.extras)

end CallByNeed.CommandLine
