import CallByNeed.Term

/-!
# Printed terms

Nested abstractions are printed as one parameter list and nested applications
as one row of operands.  An abstraction reaches as far right as it can, so it
stands without parentheses only as the last operand of its row.
-/

namespace CallByNeed.Term

/-- A parameter list with its arrow; nothing for no parameters. -/
def heading : List Name → String
  | [] => ""
  | [parameter] => parameter ++ " => "
  | parameters => "(" ++ String.intercalate ", " parameters ++ ") => "

def parenthesised (text : String) : String :=
  "(" ++ text ++ ")"

mutual

/-- A term under the parameters that stand before it. -/
def displayUnder (parameters : List Name) : Term → String
  | var name => heading parameters ++ name
  | lam parameter body => displayUnder (parameters ++ [parameter]) body
  | app function argument =>
    heading parameters ++ displayRow function ++ " " ++ displayLast argument

/-- The operands of a row before its last one. -/
def displayRow : Term → String
  | var name => name
  | lam parameter body => parenthesised (displayUnder [parameter] body)
  | app function argument => displayRow function ++ " " ++ displayInner argument

/-- An operand that others follow. -/
def displayInner : Term → String
  | var name => name
  | lam parameter body => parenthesised (displayUnder [parameter] body)
  | app function argument =>
    parenthesised (displayRow function ++ " " ++ displayLast argument)

/-- The last operand of a row. -/
def displayLast : Term → String
  | var name => name
  | lam parameter body => displayUnder [parameter] body
  | app function argument =>
    parenthesised (displayRow function ++ " " ++ displayLast argument)

end

def display (term : Term) : String :=
  displayUnder [] term

end CallByNeed.Term
