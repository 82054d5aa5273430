import CallByNeed.Files.Tree
import CallByNeed.Machine.Run
import CallByNeed.Module
import CallByNeed.Report.Notice
import CallByNeed.Text.Utf8

/-!
# Failures

Everything that can go wrong in a session.  Errors of the language have a
notice; `Failure.foreign?` names the others.
-/

namespace CallByNeed

open Source Text

inductive LoadReason where
  | notOpened
  | notFound (importer : Option String)
  | notLoaded (importer : String)
deriving DecidableEq, Repr

def LoadReason.text : LoadReason → String
  | .notOpened => "could not be opened"
  | .notFound none => "could not be found"
  | .notFound (some importer) => "could not be found (imported by '" ++ importer ++ "')"
  | .notLoaded importer => "imported by '" ++ importer ++ "' was not loaded"

inductive Failure where
  | parse (fault : ParseFault)
  | load (moduleId : String) (reason : LoadReason)
  | duplicate (name moduleId : String)
  | cyclicImport (cycle : List String)
  | evaluation (error : EvalError) (trace : List String)
  /-- A numeral was asked for something that is not a natural number. -/
  | notNatural (shown : String)
  /-- An error that says for itself how it is reported. -/
  | noted (notice : Notice) (trace : List String)
  /-- The bytes of a file are not text. -/
  | undecodable (fault : Utf8Fault)
  /-- A path holds the character that no path can hold. -/
  | nullInPath
  /-- Nothing can be written or deleted at a path. -/
  | tree (fault : Files.TreeFault) (path : String)
  /-- A module was looked up that is not linked. -/
  | notLinked (moduleId : String)
  | noResults
  | noMain
  | noThunk
  | noTerm
  | unwritable
  /-- The value of an option that names a directory was taken away. -/
  | noDirectory
  /-- A message could not be put together. -/
  | template (fault : TemplateFault)
  /-- A message was to be put together from data that does not fit. -/
  | data (fault : DataFault)
  /-- Any other error, by its kind and text. -/
  | foreign (kind text : String)
  | interrupted
  /-- The host's bound on recursion was met, which no operation here has. -/
  | tooDeep
  | exit (code : Int)
  | outOfFuel
deriving DecidableEq, Repr

def EvalError.notice : EvalError → Notice
  | .unbound name => .unbound name
  | .notAFunction value => .notAFunction value
  | .cyclic label => .cyclicValue label
  | .stepLimit limit => .stepLimit (toString limit)

def Source.ParseFault.notice (fault : ParseFault) : Notice :=
  .ofSyntax fault.message fault.source fault.start fault.stop

namespace Failure

/-- How an error of the language is reported, with its trace. -/
def notice? : Failure → Option (Notice × List String)
  | .parse fault => some (fault.notice, [])
  | .load moduleId reason => some (.ofLoad moduleId reason.text, [])
  | .duplicate name moduleId => some (.duplicate name moduleId, [])
  | .cyclicImport cycle => some (.cyclicImport cycle, [])
  | .evaluation error trace => some (error.notice, trace)
  | .notNatural shown => some (.notNatural shown, [])
  | .noted notice trace => some (notice, trace)
  | _ => none

end Failure

/-- A character as the faults of templates name it: by its code from `limit`
on. -/
def markText (limit : Nat) (char : Char) : String :=
  if 32 < char.toNat && char.toNat < limit then String.singleton char
  else "\\x" ++ hexadecimal 1 char.toNat

def layoutText : LayoutFault → String
  | .tooManyDigits => "Too many decimal digits in format string"
  | .noPrecision => "Format specifier missing precision"
  | .twoSeparators => "Cannot specify both ',' and '_'."
  | .separated separator kind =>
    "Cannot specify '" ++ String.singleton separator ++ "' with '" ++ markText 128 kind ++ "'."
  | .notALayout layout =>
    "Invalid format specifier '" ++ layout ++ "' for object of type 'str'"
  | .unknownKind kind =>
    "Unknown format code '" ++ markText 128 kind ++ "' for object of type 'str'"
  | .signed => "Sign not allowed in string format specifier"
  | .spaced => "Space not allowed in string format specifier"
  | .zeroCoerced =>
    "Negative zero coercion (z) not allowed in string format specifier"
  | .alternate => "Alternate form (#) not allowed in string format specifier"
  | .paddedInside => "'=' alignment not allowed in string format specifier"

/-- The kind and text of the error for a template that cannot be filled. -/
def templateKind : TemplateFault → String × String
  | .missing index =>
    ("IndexError", "Replacement index " ++ toString index
      ++ " out of range for positional args tuple")
  | .unnamed name => ("KeyError", quoted name)
  | .loneOpening => ("ValueError", "Single '\x7b' encountered in format string")
  | .loneClosing => ("ValueError", "Single '\x7d' encountered in format string")
  | .unclosed => ("ValueError", "expected '\x7d' before end of string")
  | .nestedOpening => ("ValueError", "unexpected '\x7b' in field name")
  | .noPart name =>
    ("AttributeError", "'str' object has no attribute " ++ quoted name)
  | .ofPart kind text => (kind, text)
  | .emptyPart => ("ValueError", "Empty attribute in format string")
  | .strayPart =>
    ("ValueError", "Only '.' or '[' may follow ']' in format field specifier")
  | .notAnIndex => ("TypeError", "string indices must be integers, not 'str'")
  | .noCharacter => ("IndexError", "string index out of range")
  | .noConversion =>
    ("ValueError", "end of string while looking for conversion specifier")
  | .longConversion => ("ValueError", "expected ':' after conversion specifier")
  | .unknownConversion name =>
    ("ValueError", "Unknown conversion specifier " ++ markText 127 name)
  | .unclosedLayout => ("ValueError", "unmatched '\x7b' in format spec")
  | .tooDeep => ("ValueError", "Max string recursion exceeded")
  | .layout fault => ("ValueError", layoutText fault)
  | .numberedAfterOrdered =>
    ("ValueError", "cannot switch from automatic field numbering to manual field "
      ++ "specification")
  | .orderedAfterNumbered =>
    ("ValueError", "cannot switch from manual field specification to automatic field "
      ++ "numbering")

/-- The kind and text of the error for data that does not fit in a message. -/
def dataKind : DataFault → String × String
  | .notAText kind =>
    ("AttributeError", "'" ++ kind.word ++ "' object has no attribute 'format'")
  | .noSubjects kind =>
    ("TypeError", "str.format() argument after * must be an iterable, not " ++ kind.word)
  | .noFirst .record => ("KeyError", "0")
  | .noFirst kind => ("IndexError", kind.word ++ " index out of range")
  | .noLength kind => ("TypeError", "object of type '" ++ kind.word ++ "' has no len()")
  | .unmarkable .list => ("TypeError", "can only concatenate str (not \"list\") to str")
  | .unmarkable .record => ("TypeError", "unhashable type: 'slice'")
  | .unmarkable kind => ("TypeError", "'" ++ kind.word ++ "' object is not subscriptable")
  | .notAPlace =>
    ("TypeError",
      "slice indices must be integers or None or have an __index__ method")
  | .noNextPlace kind =>
    let word := kind.word
    ("TypeError",
      if kind = .text || kind = .list then
        "can only concatenate " ++ word ++ " (not \"int\") to " ++ word
      else "unsupported operand type(s) for +: '" ++ word ++ "' and 'int'")
  | .notAnEnd kind =>
    ("TypeError",
      "'>' not supported between instances of 'int' and '" ++ kind.word ++ "'")
  | .noLabels kind => ("TypeError", "'" ++ kind.word ++ "' object is not iterable")
  | .noModules => ("TypeError", "can only join an iterable")
  | .notAModule index kind =>
    ("TypeError", "sequence item " ++ toString index ++ ": expected str instance, "
      ++ kind.word ++ " found")

/-- The kind and text of the error for a path where nothing can be changed. -/
def treeKind : Files.TreeFault → String × String
  | .missing => ("FileNotFoundError", "[Errno 2] No such file or directory: ")
  | .occupied => ("FileExistsError", "[Errno 17] File exists: ")
  | .isDirectory => ("IsADirectoryError", "[Errno 21] Is a directory: ")
  | .notADirectory => ("NotADirectoryError", "[Errno 20] Not a directory: ")

/-- The kind and text of an error that is not one of the language. -/
def Failure.foreign? : Failure → Option (String × String)
  | .undecodable fault => some ("UnicodeDecodeError", fault.text)
  | .nullInPath => some ("ValueError", "embedded null byte")
  | .tree fault path =>
    let (kind, text) := treeKind fault
    some (kind, text ++ quoted path)
  | .notLinked moduleId => some ("KeyError", quoted moduleId)
  | .noResults => some ("IndexError", "pop from empty list")
  | .noMain => some ("AttributeError", "'NoneType' object has no attribute 'id'")
  | .noThunk => some ("AttributeError", "'NoneType' object has no attribute 'forced'")
  | .noTerm => some ("IndexError", "pop from empty list")
  | .unwritable =>
    some ("ValueError", "Exceeds the limit (" ++ toString Number.mostDigits
      ++ " digits) for integer string conversion; use sys.set_int_max_str_digits() "
      ++ "to increase the limit")
  | .noDirectory =>
    some ("TypeError", "expected str, bytes or os.PathLike object, not list")
  | .template fault => some (templateKind fault)
  | .data fault => some (dataKind fault)
  | .foreign kind text => some (kind, text)
  | _ => none

def Stop.failure : Stop → Failure
  | .raised (.evaluation error trace) => .evaluation error trace
  | .raised .noThunk => .noThunk
  | .raised .noTerm => .noTerm
  | .raised .unwritable => .unwritable
  | .outOfFuel => .outOfFuel

def LinkError.failure : LinkError → Failure
  | .notExported moduleId name => .evaluation (.unbound (moduleId ++ "." ++ name)) []
  | .duplicate name moduleId => .duplicate name moduleId
  | .cyclicImport cycle => .cyclicImport cycle
  | .notLoaded moduleId importer => .load moduleId (.notLoaded importer)
  | .notLinked moduleId => .notLinked moduleId

end CallByNeed
