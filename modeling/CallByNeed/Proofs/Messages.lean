import CallByNeed.Proofs.Endings

/-!
# Errors that are not of the language

The text of such an error is part of the template of its report.  So the outcome of a guarded
block hangs on that template: the error is passed on when it can be filled, and a fault of the
template is passed on in its stead when not.  A text without braces is printed as it is.
-/

namespace CallByNeed

open Text Notice

namespace Console

variable {console : Console} {failure : Failure} {kind text : String}

/-- What a report of an error that is not of the language says before its message. -/
def foreignIntroduction (console : Console) : String :=
  console.tracebackText ++ console.colours.bold (some .red) "[internal] "
    ++ console.colours.bold (some .red) "error: "

/-- The console after such a report, from which the lines that were worked on are gone. -/
def reported (console : Console) (message : String) : Console :=
  { console with
    traceback := []
    printed := console.printed ++ (console.foreignIntroduction ++ message ++ "\n") }

theorem leave_eq_passOn (foreign : failure.foreign? = some (kind, text)) :
    console.leave (some failure) = console.passOn (.unknown kind text) failure := by
  cases failure <;> first
    | (cases foreign; done)
    | simp only [leave, Failure.notice?, foreign]

theorem passOn_unknown (goesOn : console.fatal = false) (failure : Failure) :
    console.passOn (.unknown kind text) failure =
      match (unknown kind text).message console.colours with
      | .ok message => (.escaped failure, console.reported message)
      | .error fault => (.escaped (.template fault), console) := by
  have undiagnosed : (unknown kind text).isDiagnosed = false := rfl
  have internal : (unknown kind text).internal = true := rfl
  cases printed : (unknown kind text).message console.colours with
  | error fault => simp only [passOn, throw, report, printNotice, printed]
  | ok message =>
    have nothing : traceText [] = "" := rfl
    simp only [passOn, throw, report, printNotice, printed, undiagnosed, internal, goesOn,
      nothing, Bool.false_eq_true, if_false, if_true, String.append_empty]
    rfl

/-- In every style, the message about a text without braces is the text as it is. -/
theorem message_unknown (plainKind : isPlain kind) (plainText : isPlain text) (style : Style) :
    (unknown kind text).message style =
      .ok ("unknown error: '" ++ kind ++ ": " ++ text ++ "'") := by
  have filled (paint : String → String) :
      fill style.parts paint (unknown kind text).template (unknown kind text).subjects =
        .ok (unknown kind text).template := by
    have enough : assembled ((unknown kind text).subjects.map paint)
        [.text (unknown kind text).template.toList] =
          some (unknown kind text).template.toList := by
      simp [assembled]
    have done := fill_written (unknown_shape plainKind plainText) style.parts paint enough
    rwa [String.ofList_toList] at done
  rw [message, plain, filled id]
  exact filled (style.bold none)

/-- An error that is not of the language and has no braces in its text is reported as it is,
and passed on; the lines that were worked on are forgotten.  Whatever its text is, the report
is the template with its slots filled, first as they are and then in bold.  When they cannot be
filled, nothing is printed and the fault of the template is passed on instead. -/
theorem foreign_passed_on (goesOn : console.fatal = false)
    (foreign : failure.foreign? = some (kind, text)) :
    (isPlain kind → isPlain text → console.leave (some failure) =
      (.escaped failure,
        console.reported ("unknown error: '" ++ kind ++ ": " ++ text ++ "'"))) ∧
    (∀ message, (unknown kind text).message console.colours = .ok message →
      console.leave (some failure) = (.escaped failure, console.reported message)) ∧
    ∀ fault, (unknown kind text).message console.colours = .error fault →
      console.leave (some failure) = (.escaped (.template fault), console) := by
  rw [leave_eq_passOn foreign, passOn_unknown goesOn]
  refine ⟨fun plainKind plainText => ?_, fun message printed => ?_, fun fault failed => ?_⟩
  · rw [message_unknown plainKind plainText]
  · rw [printed]
  · rw [failed]

/-- A console on which a line of a file is worked on. -/
def working : Console :=
  (fresh false false .plain).register "a" ⟨some "x", .known 1⟩

theorem division_passed_on : working.fatal = false ∧
    working.leave (some (.foreign "ZeroDivisionError" "division by zero")) =
      (.escaped (.foreign "ZeroDivisionError" "division by zero"),
        { fresh false false .plain with
          printed := "  File 'a', line 1:\n    x\n[internal] error: unknown error: " ++
            "'ZeroDivisionError: division by zero'\n" }) := by
  have goesOn : working.fatal = false := rfl
  have foreign : (Failure.foreign "ZeroDivisionError" "division by zero").foreign? =
      some ("ZeroDivisionError", "division by zero") := rfl
  have leaves := (foreign_passed_on goesOn foreign).1 (by decide +kernel) (by decide +kernel)
  have printed : (working.reported ("unknown error: '" ++ "ZeroDivisionError" ++ ": " ++
      "division by zero" ++ "'")).printed =
      "  File 'a', line 1:\n    x\n[internal] error: unknown error: " ++
        "'ZeroDivisionError: division by zero'\n" := by decide +kernel
  refine ⟨goesOn, leaves.trans ?_⟩
  rw [← printed]
  rfl

/-- Braces in the text of an error put another error in its place. -/
theorem braces_replace_error :
    working.leave (some (.foreign "ValueError" "no \x7bkey\x7d")) =
      (.escaped (.template (.unnamed "key")), working) := by
  have failed : (unknown "ValueError" "no \x7bkey\x7d").message .plain =
      .error (.unnamed "key") := by
    have shape : (unknown "ValueError" "no \x7bkey\x7d").template.toList =
        (Piece.text "unknown error: 'ValueError: no ".toList).written ++
          ['{', 'k', 'e', 'y', '}', '\''] := by decide +kernel
    have slot : filled .nameless [""] 1 .undecided ['{', 'k', 'e', 'y', '}', '\''] =
        .error (.unnamed "key") := by cbv
    have same : (unknown "ValueError" "no \x7bkey\x7d").subjects.map id = [""] := rfl
    rw [Notice.message, plain, fill, shape, same]
    show (filled .nameless [""] 1 .undecided _ >>= _) >>= _ = _
    rw [filled_text, slot]
    rfl
  rw [leave_eq_passOn rfl, passOn_unknown rfl]
  show (match (unknown "ValueError" "no \x7bkey\x7d").message .plain with
    | .ok message => _
    | .error fault => _) = _
  rw [failed]

end Console

end CallByNeed
