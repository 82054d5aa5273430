import CallByNeed.Number.Binary64
import CallByNeed.Number.Integer
import CallByNeed.Text.Quoted

/-!
# Host data

Constants of the calculus hold data of the host program, which the calculus
only passes around.  The successor primitive counts with integers, for which
the two truth values stand for one and zero.
-/

namespace CallByNeed

inductive Datum where
  | nothing
  | bool (value : Bool)
  | int (value : Int)
  | real (value : Number.Binary64)
  | text (value : String)
  | list (items : List Datum)
  | record (fields : List (String × Datum))
deriving Repr, Inhabited

namespace Datum

inductive Kind where
  | nothing
  | bool
  | int
  | real
  | text
  | list
  | record
deriving DecidableEq, Repr

/-- The kind as messages name it. -/
def Kind.word : Kind → String
  | .nothing => "NoneType"
  | .bool => "bool"
  | .int => "int"
  | .real => "float"
  | .text => "str"
  | .list => "list"
  | .record => "dict"

/-- How data of a kind is shown that is zero or has no parts. -/
def Kind.empties : Kind → List String
  | .nothing => ["None"]
  | .bool => ["False"]
  | .int => ["0"]
  | .real => ["0.0", "-0.0"]
  | .text => [""]
  | .list => ["[]"]
  | .record => ["\x7b\x7d"]

def kind : Datum → Kind
  | .nothing => .nothing
  | .bool _ => .bool
  | .int _ => .int
  | .real _ => .real
  | .text _ => .text
  | .list _ => .list
  | .record _ => .record

/-- How many parts a datum has, if it can have any. -/
def length? : Datum → Option Nat
  | .text value => some value.length
  | .list items => some items.length
  | .record fields => some fields.length
  | _ => none

/-- The parts of a datum, if it can have any: characters, items or keys. -/
def parts? : Datum → Option (List Datum)
  | .text value => some (value.toList.map fun char => .text (String.singleton char))
  | .list items => some items
  | .record fields => some (fields.map fun field => .text field.1)
  | _ => none

/-- The integer that a datum counts as. -/
def int? : Datum → Option Int
  | .bool value => some (if value then 1 else 0)
  | .int value => some value
  | _ => none

mutual

/-- A datum as it is written inside other data: texts are quoted. -/
def written : Datum → String
  | .nothing => "None"
  | .bool value => if value then "True" else "False"
  | .int value => toString value
  | .real value => value.text
  | .text value => Text.quoted value
  | .list items => "[" ++ String.intercalate ", " (writtenItems items) ++ "]"
  | .record fields => "\x7b" ++ String.intercalate ", " (writtenFields fields) ++ "\x7d"

def writtenItems : List Datum → List String
  | [] => []
  | item :: items => item.written :: writtenItems items

def writtenFields : List (String × Datum) → List String
  | [] => []
  | (key, value) :: fields =>
    (Text.quoted key ++ ": " ++ value.written) :: writtenFields fields

end

mutual

/-- Whether a datum can be written: none of its integers has too many
digits. -/
def isWritable : Datum → Bool
  | .int value => value.natAbs < Nat.pow 10 Number.mostDigits
  | .list items => areWritable items
  | .record fields => fieldsAreWritable fields
  | _ => true

def areWritable : List Datum → Bool
  | [] => true
  | item :: items => item.isWritable && areWritable items

def fieldsAreWritable : List (String × Datum) → Bool
  | [] => true
  | (_, value) :: fields => value.isWritable && fieldsAreWritable fields

end

def hasParts : Datum → Bool
  | .list _ => true
  | .record _ => true
  | _ => false

/-- A datum as a message shows it: a text is shown as it is. -/
def shown : Datum → String
  | .text value => value
  | datum => datum.written

/-- Whether a datum is zero or has no parts. -/
def isEmpty (datum : Datum) : Bool :=
  datum.kind.empties.contains datum.shown

mutual

/-- Whether two data are equal.  Numbers are compared by value, whatever their
kind, and records whatever the order of their fields. -/
def same : Datum → Datum → Bool
  | .nothing, .nothing => true
  | .text left, .text right => left == right
  | .real left, .real right => left.same right
  | .list left, .list right => sameItems left right
  | .record left, .record right =>
    left.length == right.length && sameFields left right
  | .real number, datum =>
    match datum.int? with
    | some integer => number.isInt integer
    | none => false
  | left, .real number =>
    match left.int? with
    | some integer => number.isInt integer
    | none => false
  | left, right =>
    match left.int?, right.int? with
    | some leftInt, some rightInt => leftInt == rightInt
    | _, _ => false

def sameItems : List Datum → List Datum → Bool
  | [], [] => true
  | left :: lefts, right :: rights => left.same right && sameItems lefts rights
  | _, _ => false

def sameFields : List (String × Datum) → List (String × Datum) → Bool
  | [], _ => true
  | (key, value) :: fields, others =>
    (match others.lookup key with
     | some other => value.same other
     | none => false)
      && sameFields fields others

end

end Datum

end CallByNeed
