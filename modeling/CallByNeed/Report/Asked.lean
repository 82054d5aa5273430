import CallByNeed.Report.Failure

/-!
# Notices on request

A host can ask for a notice by its kind, with arguments that it gives by
position or by name.  Arguments that do not fit are refused: by their number
and names before anything is done with them, and else by what the notice
needs them for.
-/

namespace CallByNeed

open Text

/-- The kinds of notices that can be asked for. -/
inductive NoticeKind where
  | general
  | parse
  | load
  | duplicate
  | cyclicImport
  | evaluation
  | unbound
  | notAFunction
  | cyclicValue
  | stepLimit
deriving DecidableEq, Repr

namespace NoticeKind

def all : List NoticeKind :=
  [general, parse, load, duplicate, cyclicImport, evaluation, unbound, notAFunction,
    cyclicValue, stepLimit]

def word : NoticeKind → String
  | general => "GenericException"
  | parse => "ParseError"
  | load => "LoadError"
  | duplicate => "DuplicateBindingError"
  | cyclicImport => "CyclicImportError"
  | evaluation => "EvaluationError"
  | unbound => "UnboundNameError"
  | notAFunction => "NotAFunctionError"
  | cyclicValue => "CyclicValueError"
  | stepLimit => "StepLimitExceeded"

def find? (word : String) : Option NoticeKind :=
  all.find? fun kind => kind.word = word

/-- The names of the arguments that a kind needs. -/
def needed : NoticeKind → List String
  | general => ["msg"]
  | parse => ["msg", "line_text", "line_num"]
  | load => ["module_id"]
  | duplicate => ["name", "module_id"]
  | cyclicImport => ["cycle"]
  | evaluation => ["msg", "expr"]
  | unbound => ["name"]
  | notAFunction => ["value"]
  | cyclicValue => ["name"]
  | stepLimit => ["limit"]

/-- The names of the arguments that can be left out, which stand behind the
others. -/
def optional : NoticeKind → List String
  | general => ["exprs", "start", "end", "diagnosis", "internal"]
  | parse => ["start", "end"]
  | load => ["reason"]
  | duplicate => []
  | cyclicImport => []
  | _ => ["trace"]

def parameters (kind : NoticeKind) : List String :=
  kind.needed ++ kind.optional

end NoticeKind

structure Arguments where
  positional : List Datum
  named : List (String × Datum)
deriving Repr

/-- Why arguments do not fit the names of a kind. -/
inductive CallFault where
  | unexpected (name : String)
  | repeated (name : String)
  | tooMany (count : Nat)
  | missing (names : List String)
deriving DecidableEq, Repr

/-- Names in a row, the last one behind a word. -/
def enumerated : List String → String
  | [] => ""
  | [name] => quoted name
  | [first, second] => quoted first ++ " and " ++ quoted second
  | names =>
    String.intercalate ", " (names.dropLast.map quoted) ++ ", and "
      ++ quoted (names.getLastD "")

/-- What is wrong with the arguments for a kind.  The notice itself counts as an
argument. -/
def CallFault.text (kind : NoticeKind) (fault : CallFault) : String :=
  kind.word ++ ".__init__() " ++
  match fault with
  | .unexpected name => "got an unexpected keyword argument '" ++ name ++ "'"
  | .repeated name => "got multiple values for argument '" ++ name ++ "'"
  | .tooMany count =>
    let most := toString (kind.parameters.length + 1)
    "takes "
      ++ (if kind.optional.isEmpty then most
          else "from " ++ toString (kind.needed.length + 1) ++ " to " ++ most)
      ++ " positional arguments but " ++ toString (count + 1) ++ " were given"
  | .missing names =>
    "missing " ++ toString names.length ++ " required positional argument"
      ++ (if names.length = 1 then "" else "s") ++ ": " ++ enumerated names

/-- The first fault among names that are given, when those in `taken` are given
by position. -/
def nameFault? (parameters taken : List String) : List String → Option CallFault
  | [] => none
  | name :: names =>
    if !parameters.contains name then some (.unexpected name)
    else if taken.contains name then some (.repeated name)
    else nameFault? parameters taken names

/-- The arguments with their names.  Names are looked at before numbers. -/
def Arguments.bind (arguments : Arguments) (kind : NoticeKind) :
    Except CallFault (List (String × Datum)) :=
  let parameters := kind.parameters
  let count := arguments.positional.length
  match nameFault? parameters (parameters.take count) (arguments.named.map Prod.fst) with
  | some fault => .error fault
  | none =>
    let bound := parameters.zip arguments.positional ++ arguments.named
    let missing := kind.needed.filter fun name => (bound.lookup name).isNone
    if parameters.length < count then .error (.tooMany count)
    else if missing.isEmpty then .ok bound
    else .error (.missing missing)

/-- What a notice says besides its text. -/
inductive Detail where
  | none
  | line (number : Datum)
  | trace (labels : List Datum)
  | cycle (modules : List Datum)
deriving Repr

/-- A notice that was asked for. -/
structure Asked where
  kind : NoticeKind
  notice : Notice
  /-- The first subject. -/
  subject : Datum
  detail : Detail
  /-- The arguments that answers repeat. -/
  repeated : List (String × Datum) := []
deriving Repr

def Asked.failure (asked : Asked) : Failure :=
  .noted asked.notice
    (match asked.detail with
     | .trace labels => labels.map Datum.shown
     | _ => [])

/-- The subjects that a datum stands for: nothing is an empty text, and a text
is the only subject. -/
def subjectsOf : Datum → Except DataFault (List Datum)
  | .nothing => .ok [.text ""]
  | .text value => .ok [.text value]
  | datum =>
    match datum.parts? with
    | some parts => .ok parts
    | none => .error (.noSubjects datum.kind)

def textOf : Datum → Except DataFault String
  | .text value => .ok value
  | datum => .error (.notAText datum.kind)

/-- The labels of a trace.  Data that is empty stands for none. -/
def labelsOf (datum : Datum) : Except DataFault (List Datum) :=
  if datum.isEmpty then .ok []
  else
    match datum.parts? with
    | some parts => .ok parts
    | none => .error (.noLabels datum.kind)

/-- The modules of a cycle, which are texts. -/
def modulesOf (datum : Datum) : Except DataFault (List String) :=
  match datum.parts? with
  | none => .error .noModules
  | some parts =>
    (parts.zipIdx.mapM fun (part, index) =>
      match part with
      | .text value => .ok value
      | other => .error (.notAModule index other.kind))

/-- Fills a notice with the subjects that a datum stands for, and gives the
first of them. -/
def Notice.about (notice : Notice) (subjects : Datum) (named : Parts := .nameless) :
    Except Failure (Notice × Datum) := do
  let parts ← (subjectsOf subjects).mapError .data
  if !parts.all Datum.isWritable then throw .unwritable
  let notice := { notice with subjects := parts.map Datum.shown }
  let _ ← (notice.plain named).mapError .template
  match subjects.kind, parts with
  | .record, _ => throw (.data (.noFirst .record))
  | kind, [] => throw (.data (.noFirst kind))
  | _, first :: _ =>
    match notice.stop.or (first.length?.map Int.ofNat) with
    | none => throw (.data (.noLength first.kind))
    | stop => return ({ notice with subjectKind := first.kind, stop }, first)

/-- Whether a datum stands for the end of the subject. -/
def isSubjectEnd (datum : Datum) : Bool :=
  datum.same (.int (-1))

/-- Why data gives no stretch to mark. -/
def stretchFault? (start stop : Datum) : Option DataFault :=
  match start.int?, start.kind with
  | some _, _ =>
    if isSubjectEnd stop || stop.int?.isSome then none
    else if stop.kind = .real then some .notAPlace
    else some (.notAnEnd stop.kind)
  | none, .nothing => some (.noNextPlace .nothing)
  | none, _ => some .notAPlace

/-- A notice with the stretch that data gives. -/
def Notice.marking (notice : Notice) (start stop : Datum) : Notice :=
  let place := start.int?.getD 0
  { notice with
    start := place
    stop := if isSubjectEnd stop then none else some (stop.int?.getD (place + 1))
    stretchFault := stretchFault? start stop }

/-- The place behind another one. -/
def nextPlace (start : Datum) : Except DataFault Datum :=
  match start.int? with
  | some place => .ok (.int (place + 1))
  | none => .error (.noNextPlace start.kind)

def NoticeKind.notice (kind : NoticeKind) (bound : List (String × Datum))
    (named : Parts := .nameless) : Except Failure Asked := do
  let given (name : String) (other : Datum) : Datum := (bound.lookup name).getD other
  let start := given "start" (.int 0)
  let stop := given "end" (.int (-1))
  let text (name : String) (other : String) : Except Failure String :=
    (textOf (given name (.text other))).mapError .data
  let finish (notice : Notice) (subjects : Datum) (detail : Detail) : Except Failure Asked := do
    let (notice, subject) ← notice.about subjects named
    return { kind, notice, subject, detail }
  let traced (notice : Notice) (subjects : Datum) : Except Failure Asked := do
    let asked ← finish notice subjects .none
    let labels ← (labelsOf (given "trace" .nothing)).mapError .data
    return { asked with detail := .trace labels }
  let shown (name : String) : Except Failure Datum :=
    let datum := given name .nothing
    if datum.isWritable then .ok (.text datum.shown) else .error .unwritable
  match kind with
  | .general =>
    let notice : Notice :=
      { template := ← text "msg" ""
        subjects := []
        diagnosis := !(given "diagnosis" (.bool true)).isEmpty
        internal := !(given "internal" (.bool false)).isEmpty }
    finish (notice.marking start stop) (given "exprs" .nothing) .none
  | .parse =>
    let message ← text "msg" ""
    let stop ← if isSubjectEnd stop then (nextPlace start).mapError .data else .ok stop
    finish ((Notice.ofSyntax message "" 0 0).marking start stop)
      (given "line_text" .nothing) (.line (given "line_num" .nothing))
  | .load =>
    finish (.ofLoad "" (← text "reason" LoadReason.notOpened.text))
      (given "module_id" .nothing) .none
  | .duplicate =>
    finish (.duplicate "" "") (.list [given "name" .nothing, given "module_id" .nothing])
      .none
  | .cyclicImport =>
    let modules ← (modulesOf (given "cycle" .nothing)).mapError .data
    finish (.cyclicImport []) (.text (String.intercalate " -> " modules))
      (.cycle (modules.map Datum.text))
  | .evaluation =>
    traced { template := ← text "msg" "", subjects := [] } (given "expr" .nothing)
  | .unbound => traced (.unbound "") (given "name" .nothing)
  | .notAFunction => traced (.notAFunction "") (← shown "value")
  | .cyclicValue => traced (.cyclicValue "") (given "name" .nothing)
  | .stepLimit => traced (.stepLimit "") (← shown "limit")

/-- Whether answers repeat an argument as it was given. -/
def isRepeated (name : String) (datum : Datum) : Bool :=
  ["start", "diagnosis", "internal"].contains name || (name = "end" && !isSubjectEnd datum)

def NoticeKind.ask (kind : NoticeKind) (arguments : Arguments)
    (named : Parts := .nameless) : Except Failure Asked :=
  match arguments.bind kind with
  | .ok bound => do
      let asked ← kind.notice bound named
      return { asked with repeated := bound.filter fun entry => isRepeated entry.1 entry.2 }
  | .error fault => .error (.foreign "TypeError" (fault.text kind))

end CallByNeed
